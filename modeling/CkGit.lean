import CkGit.Assignment.Survives
import CkGit.Yaml.Accepted
import CkGit.Retention.Law
import CkGit.Store.Groups
import CkGit.Archive.Contained
import CkGit.Checkouts.Stable
import CkGit.Runner.Permits
import CkGit.Dependencies.Accepted
import CkGit.Dependencies.Approved
import CkGit.Metadata.Restart
import CkGit.Metadata.Whole
import CkGit.Pages.Served
import CkGit.Store.GivenUp
import CkGit.Responses.RoundTrip
import CkGit.Projects.Together
import CkGit.Index.Runs
import CkGit.Pages.Kept
import CkGit.Vm.Untrusted
import CkGit.Vm.Chunking
import CkGit.Artifacts.Listed
import CkGit.Workflow.Finish
import CkGit.Stream.Splits
import CkGit.Events.CrashSafe
import CkGit.Control.Agree
import CkGit.Upload.Exclusive
import CkGit.Upload.Faithful
import CkGit.Workspace.Restart
import CkGit.Outline.Nested
import CkGit.Digest.Standard
import CkGit.CommandLine.RoundTrip
import CkGit.Graph.Paths
import CkGit.LogStream.Overflow
import CkGit.LogFollow.Followed
import CkGit.ReceiveHook.Stored
import CkGit.DocsNav.Complete
import CkGit.Store.ArrivalOrder
import CkGit.Store.Fencing
import CkGit.Store.OneGroup
import CkGit.Store.Offered
import CkGit.Store.NotLost
import CkGit.Store.Publication
import CkGit.Highlight.Spans
import CkGit.Discovery.Exclusions
import CkGit.Remote.Redacted
import CkGit.Web.Grammar
import CkGit.Config.RoundTrip
