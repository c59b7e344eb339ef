import Voleeo.Send.SamePath
import Voleeo.Template.NothingLost
import Voleeo.Sse.Chunking
import Voleeo.Resolve.Http
import Voleeo.Resolve.Variables
import Voleeo.GitDiff.Discard
import Voleeo.GitDiff.Conflicts
import Voleeo.Commands.SecretUpdate
import Voleeo.Mcp.OwnSecrets
import Voleeo.Resolve.Text
import Voleeo.Tree.DragLands
import Voleeo.SyncDir.OwnSlot
import Voleeo.Git.Volatile
import Voleeo.Storage.ForestRuns
import Voleeo.SharedFiles
import Voleeo.Runs
import Voleeo.Storage.Transcripts
import Voleeo.Sse.LiveStream
import Voleeo.Mcp.ToolCalls
import Voleeo.Storage.Deletions
import Voleeo.Mcp.WriteTools
import Voleeo.Storage.RequestRuns
import Voleeo.Mcp.FailedWrites
import Voleeo.Mcp.MaskedEcho
import Voleeo.Environments.TextEditor
import Voleeo.Send.Body
import Voleeo.FormUrlEncoded
import Voleeo.Send.Auth
import Voleeo.Send.SentQuery
import Voleeo.Send.QueryPieces
import Voleeo.Commands.WorkspaceKey
import Voleeo.Upsert
import Voleeo.Cookies.Matching
import Voleeo.Cookies.JarRuns
import Voleeo.Template.SameResolution
import Voleeo.Cookies.Resolve
import Voleeo.Git.Merging
import Voleeo.Git.MergeOutcomes
import Voleeo.Git.MergeRuns
import Voleeo.Json
import Voleeo.Postman.Imported
import Voleeo.Postman.Convert
import Voleeo.Postman.ImportedAuth
import Voleeo.Postman.Exported
import Voleeo.Postman.ExportedAuth
import Voleeo.Template.Rendered
import Voleeo.Curl.Serialize
import Voleeo.Live.Registry
import Voleeo.Live.WsManager
import Voleeo.Live.GrpcManager
import Voleeo.Web.HttpStore
import Voleeo.Web.FolderRun
import Voleeo.Cookies.TwoStage
import Voleeo.Cookies.SendChain
import Voleeo.OAuth.TokenCache
import Voleeo.Demands
import Voleeo.Storage.Disk
import Voleeo.Storage.DiskDemands
import Voleeo.Imports.Bundle
import Voleeo.Imports.Commit
import Voleeo.Imports.BundleImport
import Voleeo.Imports.CommitDemands
import Voleeo.Imports.AllOrNothing
import Voleeo.Live.CancelRegistry
import Voleeo.Cookies.Expiry
import Voleeo.Records
import Voleeo.Web.InheritedMetadata
import Voleeo.Send.Guarded
import Voleeo.Storage.EnvironmentRuns
import Voleeo.Storage.ResponseHistory
import Voleeo.Imports.GroupAuth
import Voleeo.Imports.Bruno
import Voleeo.Imports.Insomnia
import Voleeo.Imports.Yaak
import Voleeo.Imports.GroupedFormats
import Voleeo.Web.LatestSend
import Voleeo.Storage.QuietRuns
import Voleeo.Imports.RoundTrip
import Voleeo.Cookies.JarIdentity
import Voleeo.Curl.ShellTokenize
import Voleeo.Tree.Completeness
import Voleeo.Storage.FailedAppends
import Voleeo.Send.RedirectWarning
import Voleeo.Send.CanonicalRequest
import Voleeo.AuthSyntax
import Voleeo.Send.DigestParams
import Voleeo.Send.DigestChallenge
import Voleeo.Send.DigestHeader
import Voleeo.Tree.FolderPaths
import Voleeo.Storage.TreeWalks
import Voleeo.JsonText
import Voleeo.JsonRoundTrip
import Voleeo.Httpie.Items
import Voleeo.Httpie.Parse
import Voleeo.Httpie.Fields
import Voleeo.Httpie.Command
import Voleeo.Httpie.RoundTrip
import Voleeo.Commands.KeyDisplay
import Voleeo.Crypto.InlineText
import Voleeo.Trie
import Voleeo.Imports.PathGroups
import Voleeo.Imports.PreviewTree
import Voleeo.Imports.PlanTree
import Voleeo.Storage.BodySearch
import Voleeo.PrettyJson
import Voleeo.Storage.FoldEnds
import Voleeo.Scan
import Voleeo.Imports.BundlePreview
import Voleeo.Imports.InsomniaTree
import Voleeo.Loops
import Voleeo.Imports.FlatExports
import Voleeo.JsonObject
import Voleeo.Imports.SchemaExample
import Voleeo.Imports.SchemaReading
import Voleeo.Imports.InlinedSchema
import Voleeo.Imports.SharedSchemas
import Voleeo.Send.Segments
import Voleeo.Imports.PathTemplate
import Voleeo.Imports.PathPieces
import Voleeo.Imports.PathRuns
import Voleeo.Imports.PathDemands
import Voleeo.Imports.PathParameters
import Voleeo.OAuth.Flow
import Voleeo.OAuth.Expiry
import Voleeo.OAuth.SharedTokens
import Voleeo.Web.ChangeMapExact
import Voleeo.Grpc.MessageSchema
import Voleeo.Storage.DuplicateRuns
import Voleeo.Storage.BodyCache
import Voleeo.Web.LineFolds
import Voleeo.Grpc.Reflection
import Voleeo.Sse.Finish
import Voleeo.Send.AtOnce
import Voleeo.Send.UriDecoding
import Voleeo.Send.QueryRows
import Voleeo.Curl.Parse
import Voleeo.Curl.Credentials
import Voleeo.JsonTokens
import Voleeo.Storage.StoredContent
import Voleeo.Web.ParamRemoval
import Voleeo.Web.ParamEdits
import Voleeo.Web.ResponseChain
import Voleeo.OAuth.Waiting
