import LogSync.Json.Reader
import LogSync.Main
import LogSync.Proofs.Announcements
import LogSync.Proofs.AutostopHistories
import LogSync.Proofs.AutostopStreaks
import LogSync.Proofs.BitmapCounts
import LogSync.Proofs.BitmapEquality
import LogSync.Proofs.BitmapHistories
import LogSync.Proofs.BitmapSearches
import LogSync.Proofs.ChangeReports
import LogSync.Proofs.Conservation
import LogSync.Proofs.DataModelTexts
import LogSync.Proofs.DeclaredWants
import LogSync.Proofs.DeviceProgress
import LogSync.Proofs.DueTimers
import LogSync.Proofs.FullStopHolds
import LogSync.Proofs.FullStops
import LogSync.Proofs.HeldKeys
import LogSync.Proofs.Interleavings
import LogSync.Proofs.LinkCalls
import LogSync.Proofs.OneNamespace
import LogSync.Proofs.PeerRecords
import LogSync.Proofs.PreHaves
import LogSync.Proofs.RefusedCores
import LogSync.Proofs.RoleChanges
import LogSync.Proofs.ScenarioMeaning
import LogSync.Proofs.ThrottleHistories
import LogSync.Proofs.Waiters
import LogSync.Proofs.WalkCursors
import LogSync.Simulation.World
