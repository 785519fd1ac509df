import Etymon.Action
import Etymon.Arrangement
import Etymon.Book
import Etymon.Book.Fragment
import Etymon.Book.Markdown
import Etymon.Book.Page
import Etymon.Cache.PathCache
import Etymon.Cache.Persistent
import Etymon.CommandLine
import Etymon.CommandLine.Grammar
import Etymon.CommandLine.Reading
import Etymon.Console
import Etymon.Digest
import Etymon.Engine
import Etymon.Engine.Client
import Etymon.Engine.Discovery
import Etymon.Engine.Request
import Etymon.Engine.Response
import Etymon.Engine.Scripted
import Etymon.Engine.TraceLine
import Etymon.Error
import Etymon.Evolver
import Etymon.Failure
import Etymon.Files.Checksum
import Etymon.Files.Fault
import Etymon.Files.Path
import Etymon.Files.Store
import Etymon.Form
import Etymon.Jobs
import Etymon.Json
import Etymon.Json.Reader
import Etymon.Json.Record
import Etymon.Keys
import Etymon.Lexicon
import Etymon.Lexicon.Description
import Etymon.Lexicon.Loading
import Etymon.Lexicon.Resolution
import Etymon.LogicalLine
import Etymon.Main
import Etymon.Plan
import Etymon.Project
import Etymon.Project.Metadata
import Etymon.Project.MetadataFile
import Etymon.Project.Starter
import Etymon.Query
import Etymon.Query.Encoding
import Etymon.Reading.Basic
import Etymon.Reading.Record
import Etymon.Reading.Sentence
import Etymon.Reading.Word
import Etymon.Record
import Etymon.RuleOrder
import Etymon.RuleOrder.Loading
import Etymon.Sentence
import Etymon.Session
import Etymon.SortedMap
import Etymon.Text.Alphanumeric
import Etymon.Text.Blank
import Etymon.Text.Lines
import Etymon.Text.Replace
import Etymon.Text.ShellWords
import Etymon.Text.Split
import Etymon.Toml
import Etymon.Toml.Document
import Etymon.Toml.Quoted
import Etymon.Toml.Value
import Etymon.Word
import Etymon.Workspace
import Etymon.Proofs.Arrangement
import Etymon.Proofs.Plan
import Etymon.Proofs.Running
import Etymon.Proofs.Windows
import Etymon.Proofs.Naive
import Etymon.Proofs.Runnable
import Etymon.Proofs.WordWise
import Etymon.Proofs.CacheFile
import Etymon.Proofs.Files
import Etymon.Proofs.Histories
import Etymon.Proofs.Resolution
import Etymon.Proofs.OpenDefinitions
import Etymon.Proofs.Calls
import Etymon.Proofs.Standing
import Etymon.Proofs.Requests
import Etymon.Proofs.Tracing
import Etymon.Proofs.Conversations
import Etymon.Proofs.Eviction
import Etymon.Proofs.Reloading
import Etymon.Proofs.Memos
import Etymon.Proofs.Affixation
import Etymon.Proofs.Inlining
import Etymon.Proofs.CurrentLexicon
import Etymon.Proofs.Settling
import Etymon.Proofs.Pages
import Etymon.Proofs.Publishing
import Etymon.Proofs.Assembly
import Etymon.Proofs.Reports
import Etymon.Proofs.Rereading
import Etymon.Proofs.Lossless
import Etymon.Proofs.DeclaredEras
import Etymon.Proofs.WrittenOrder
import Etymon.Proofs.FailedValidation
import Etymon.Proofs.NamedLexemes
import Etymon.Proofs.LoadedLexicon
import Etymon.Proofs.DefinitionKeys
import Etymon.Proofs.ScopeChains
import Etymon.Proofs.Varieties
import Etymon.Proofs.Listing
import Etymon.Proofs.TagNotation
import Etymon.Proofs.Singly
import Etymon.Proofs.ReadySessions
import Etymon.Proofs.TypedInflections
import Etymon.Proofs.OuterBlanks
import Etymon.Proofs.BareSentences
import Etymon.Proofs.TagListings
import Etymon.Proofs.FoldedLines
import Etymon.Proofs.DatedCaches
import Etymon.Proofs.DatedSessions
import Etymon.Proofs.UntimelyCalls
import Etymon.Proofs.Fragments
import Etymon.Proofs.Expansion
import Etymon.Proofs.Ancestry
