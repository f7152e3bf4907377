import Forge.State.Writers
import Forge.State.Truncation
import Forge.State.Appending
import Forge.Artifact.Authenticity
import Forge.Artifact.KeyOrder
import Forge.Event.Gaps
import Forge.Execute.ExecutorManager
import Forge.Ipc.FrameStream
import Forge.Graph.GraphRuns
import Forge.Ipc.Corruption
import Forge.Ipc.Dispatch
import Forge.Ipc.Rejection
import Forge.Ipc.SendCredit
import Forge.Ipc.StreamReuse
import Forge.Workspace.FileCoalescer
import Forge.Workspace.Coalescing
import Forge.Workspace.PathPolicy
import Forge.Workspace.Manifest
import Forge.Workspace.ManifestText
import Forge.Workspace.AppliedManifest
import Forge.Workspace.CompleteBuild
import Forge.Workspace.WorkspaceRuns
import Forge.Daemon.StatusExchange
import Forge.Daemon.SocketDaemon
import Forge.Artifact.Durability
import Forge.Cli.Commands
import Forge.Cli.Forged
import Forge.Cli.GraphCommand
import Forge.Daemon.StatusReply
import Forge.Ipc.EndOfStream
import Forge.State.LogCalls
import Forge.Workspace.FileEvents
import Forge.Workspace.GraphChanges
import Forge.Workspace.InotifyWatcher
import Forge.Workspace.ManifestErrors
import Forge.Workspace.PublishedArtifacts
import Forge.Ipc.Conversation
