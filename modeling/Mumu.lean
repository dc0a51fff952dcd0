import Mumu.LiteralPlaces
import Mumu.PercentEscapes
import Mumu.ConfigHistory
import Mumu.ListenerCalls
import Mumu.SetValueRaces
import Mumu.ConfigLoading
import Mumu.QuotedElements
import Mumu.DumpReload
import Mumu.LogDefineTexts
import Mumu.InheritedFormatters
import Mumu.NullFormatters
import Mumu.ConfigRegistry
import Mumu.ScopedLocks
import Mumu.ThreadLifetime
import Mumu.LockedCalls
import Mumu.FailedUpdates
import Mumu.RepeatedLoads
import Mumu.KeyCases
import Mumu.WrongKinds
import Mumu.StringRoundTrips
import Mumu.ListenerLocks
import Mumu.FileRotation
import Mumu.LogDocuments
import Mumu.FailedStarts
import Mumu.CasLocks
import Mumu.DateTexts
import Mumu.WholeLines
import Mumu.ConcurrentLookups
import Mumu.SharedValues
import Mumu.ListenerIds
import Mumu.LiveReloads
import Mumu.ReturningCalls
import Mumu.ConfigSnapshots
import Mumu.PatternLanguage
import Mumu.AppenderOrder
import Mumu.Interleavings
import Mumu.ReloadRaces
import Mumu.LastingObjects
import Mumu.LegibleLogs
import Mumu.ThreadHistories
