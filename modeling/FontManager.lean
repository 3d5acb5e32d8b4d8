import FontManager.Concurrent.AbilityCalls
import FontManager.Concurrent.Draining
import FontManager.Concurrent.EventOrder
import FontManager.Concurrent.IdleUnload
import FontManager.Concurrent.InstallLimit
import FontManager.Concurrent.LastingFonts
import FontManager.Concurrent.LateDeath
import FontManager.Concurrent.LoadAttribution
import FontManager.Concurrent.MigrationRequests
import FontManager.Concurrent.NamedRecords
import FontManager.Concurrent.OwnedRemoval
import FontManager.Concurrent.ScopeRegistration
import FontManager.Concurrent.TwoWriters
import FontManager.Concurrent.UserIsolation
import FontManager.Concurrent.WakeUp
import FontManager.Interaction.Interleaving
import FontManager.Interaction.Protocol
import FontManager.Sequential.Bindings
import FontManager.Sequential.BookRuns
import FontManager.Sequential.CanonicalKey
import FontManager.Sequential.CommandLine
import FontManager.Sequential.Containment
import FontManager.Sequential.FailedInstall
import FontManager.Sequential.InstallContract
import FontManager.Sequential.KeyUniqueness
import FontManager.Sequential.MigrationLoss
import FontManager.Sequential.MigrationProgress
import FontManager.Sequential.MigrationRecords
import FontManager.Sequential.MigrationResume
import FontManager.Sequential.MigrationRun
import FontManager.Sequential.SandboxResolvers
import FontManager.Sequential.ScopeCleanup
import FontManager.Sequential.ServiceDeath
import FontManager.Sequential.SourcePrivacy
import FontManager.Sequential.StartReasons
import FontManager.Sequential.UninstallExact
import FontManager.Sequential.UninstallInverse
import FontManager.Sequential.WholeFonts
import FontManager.Source.Manager
import FontManager.Store.CopyExact
import FontManager.Store.DocumentEdits
import FontManager.Store.NameLookup
import FontManager.Store.Reread
