import Theia.Js.Text
import Theia.Js.Number
import Theia.Node.Buffer
import Theia.Git.NameStatus
import Theia.Git.CommitDetails
import Theia.Git.BlameEntry
import Theia.Git.BlameFormat
import Theia.Git.FileBlame
import Theia.Git.BlameTruncation
import Theia.Core.ContextMenu
import Theia.Debug.StreamCommunication
import Theia.Js.Map
import Theia.Core.TabBars
import Theia.Terminal.TerminalFactory
import Theia.PluginExt.WorkspaceMain
import Theia.PluginExt.ManifestLoader
import Theia.PluginExt.PluginPaths
import Theia.Js.StringLiteral
import Theia.EslintPlugin.LocalizationCheck
import Theia.Core.TabReveal
import Theia.Core.SideTabBar
import Theia.Git.DugiteCommands
import Theia.Js.Uri
import Theia.Js.NumberToString
import Theia.OvsxClient.Client
import Theia.ApplicationManager.WebpackGenerator
import Theia.Task.ConfigurationModel
import Theia.PluginExt.DebugAdapterStarter
