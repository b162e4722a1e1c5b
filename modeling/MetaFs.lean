import MetaFs.Address
import MetaFs.Blank
import MetaFs.Client
import MetaFs.CommandLine
import MetaFs.Configuration
import MetaFs.Errno
import MetaFs.Error
import MetaFs.Export
import MetaFs.ExportPath
import MetaFs.FileInfo
import MetaFs.FileSystem
import MetaFs.Frame
import MetaFs.Link
import MetaFs.Listing
import MetaFs.Message
import MetaFs.Numeral
import MetaFs.Percent
import MetaFs.Permission
import MetaFs.Posix
import MetaFs.Quoted
import MetaFs.Record
import MetaFs.Server
import MetaFs.Session
import MetaFs.Settings
import MetaFs.Shown
import MetaFs.Startup
import MetaFs.Tasks
import MetaFs.Tree
import MetaFs.Uri
import MetaFs.Url.Basic
import MetaFs.Url.Charset
import MetaFs.Url.Domain
import MetaFs.Url.Host
import MetaFs.Url.Ipv4
import MetaFs.Url.Ipv6
import MetaFs.Url.Parse
import MetaFs.Url.Path
import MetaFs.Url.Punycode
import MetaFs.Utf8
import MetaFs.Wire
import MetaFs.WorkingDirectory
import MetaFs.Main
import MetaFs.Proofs.Utf8
import MetaFs.Proofs.Wire
import MetaFs.Proofs.WireValues
import MetaFs.Proofs.Messages
import MetaFs.Proofs.WireFormat
import MetaFs.Proofs.Reading
import MetaFs.Proofs.Connections
import MetaFs.Proofs.Delivery
import MetaFs.Proofs.Answers
import MetaFs.Proofs.Serve
import MetaFs.Proofs.Replies
import MetaFs.Proofs.Framing
import MetaFs.Proofs.Calls
import MetaFs.Proofs.Transit
import MetaFs.Proofs.Conversations
import MetaFs.Proofs.Queries
import MetaFs.Proofs.Rounds
import MetaFs.Proofs.Serving
import MetaFs.Proofs.Remote
import MetaFs.Proofs.Pages
import MetaFs.Proofs.ExportPages
import MetaFs.Proofs.ChangingDirectories
import MetaFs.Proofs.PathText
import MetaFs.Proofs.UrlPaths
import MetaFs.Proofs.EscapedPaths
import MetaFs.Proofs.PathSizes
import MetaFs.Proofs.Hosts
import MetaFs.Proofs.Urls
import MetaFs.Proofs.WorkingDirectories
import MetaFs.Proofs.Resolving
import MetaFs.Proofs.FollowedPaths
import MetaFs.Proofs.HomeUrls
import MetaFs.Proofs.Homes
import MetaFs.Proofs.SentPaths
import MetaFs.Proofs.NameStacks
import MetaFs.Proofs.Commands
import MetaFs.Proofs.Opening
import MetaFs.Proofs.UrlPorts
import MetaFs.Proofs.Ports
import MetaFs.Proofs.DisplayUrls
import MetaFs.Proofs.DisplayNames
import MetaFs.Proofs.Reporting
import MetaFs.Proofs.Trees
import MetaFs.Proofs.Walks
import MetaFs.Proofs.TreeCalls
import MetaFs.Proofs.Removal
import MetaFs.Proofs.ExportRequests
import MetaFs.Proofs.ExportRoot
import MetaFs.Proofs.Confinement
import MetaFs.Proofs.PartialInput
import MetaFs.Proofs.PartialOutput
import MetaFs.Proofs.Texts
import MetaFs.Proofs.Sending
import MetaFs.Proofs.Numbering
import MetaFs.Proofs.StraightPaths
import MetaFs.Proofs.ServedExports
import MetaFs.Proofs.Existence
import MetaFs.Proofs.Attributes
import MetaFs.Proofs.AttributeCommands
import MetaFs.Proofs.DecodedPaths
import MetaFs.Proofs.Aliases
import MetaFs.Proofs.DirectoryPages
import MetaFs.Proofs.WholeListings
import MetaFs.Proofs.ExportPaths
import MetaFs.Proofs.MakingDirectories
import MetaFs.Proofs.Permissions
import MetaFs.Proofs.Deleting
import MetaFs.Proofs.Renaming
import MetaFs.Proofs.Times
import MetaFs.Proofs.Umasks
import MetaFs.Proofs.Configurations
