import TextrpBriij.Auth.LoginReplay
import TextrpBriij.Auth.WalletLinkStability
import TextrpBriij.Storage.ClusterSafety
import TextrpBriij.Storage.Restart
import TextrpBriij.AuthChain.SubgraphExact
import TextrpBriij.State.AuthDifferenceExact
import TextrpBriij.EventAuth.Selection
import TextrpBriij.Types.RoundTrip
import TextrpBriij.EventAuth.MemberExceptions
import TextrpBriij.Federation.ReceiptQueue
import TextrpBriij.Stream.SlidingSyncRooms
import TextrpBriij.Stream.StreamPaging
import TextrpBriij.Stream.HistoryPaging
import TextrpBriij.Persist.StateFollows
import TextrpBriij.StateStore.CachedReads
import TextrpBriij.StateStore.DeletionSafety
import TextrpBriij.StateStore.Unreferenced
import TextrpBriij.StateStore.GroupDeltas
import TextrpBriij.Federation.CatchUpSafety
import TextrpBriij.Push.UnreadCounts
import TextrpBriij.SlidingSync.RequiredStateDeltas
import TextrpBriij.Visibility.ServerFilterReturns
import TextrpBriij.Storage.WorkerLockSafety
import TextrpBriij.Receipts.ReceiptsForward
import TextrpBriij.Push.GlobMeaning
import TextrpBriij.Appservice.ServiceQueuer
import TextrpBriij.Handlers.DelayedEvents
import TextrpBriij.Storage.DeviceInbox
import TextrpBriij.Appservice.ToDevice
import TextrpBriij.Appservice.Recovery
import TextrpBriij.Storage.OneTimeKeys
import TextrpBriij.Handlers.DeviceListUpdater
import TextrpBriij.Handlers.MapUsername
import TextrpBriij.Auth.NonceReuse
import TextrpBriij.Types.FilterDifference
import TextrpBriij.SlidingSync.RoomSyncConfig
import TextrpBriij.Push.PushRules
import TextrpBriij.Push.ReceivedTimes
