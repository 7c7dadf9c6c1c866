import FacetSearch.Json.Record
import FacetSearch.Request.FormEncoding
import FacetSearch.Tile.Chronology
import FacetSearch.Tile.Quadkey
import FacetSearch.Tile.Histogram
import FacetSearch.Cache.Lru
import FacetSearch.Index.Request
import FacetSearch.Index.Reply
import FacetSearch.Ancestry.Inheritance
import FacetSearch.Ancestry.Deployment
import FacetSearch.Ancestry.Inquiry
import FacetSearch.Index.Field
import FacetSearch.Index.Term
import FacetSearch.Request.Expansion
import FacetSearch.Request.Parameter
import FacetSearch.Request.Params
import FacetSearch.Request.Sort
import FacetSearch.Compilation.Fragment
import FacetSearch.Compilation.Query
import FacetSearch.Compilation.Settings
import FacetSearch.Compilation.Compiler
import FacetSearch.Navigation.ActiveFilter
import FacetSearch.Navigation.Assembly
import FacetSearch.Settings.BaseUrl
import FacetSearch.Settings.Basic
import FacetSearch.Settings.Document
import FacetSearch.Toml.Reader
import FacetSearch.CommandLine.Arguments
import FacetSearch.CommandLine.Command
import FacetSearch.Main
import FacetSearch.Proofs.Compilation.Answers
import FacetSearch.Proofs.Compilation.Trail
import FacetSearch.Proofs.Text.Cutting
import FacetSearch.Proofs.Text.Trimming
import FacetSearch.Proofs.Request.Expansion
import FacetSearch.Proofs.Request.Params
import FacetSearch.Proofs.Request.Segments
import FacetSearch.Proofs.Compilation.ClauseText
import FacetSearch.Proofs.Compilation.Frames
import FacetSearch.Proofs.Compilation.Meaning
import FacetSearch.Proofs.Compilation.Levels
import FacetSearch.Proofs.Compilation.Narrowing
import FacetSearch.Proofs.Navigation.DrillDown
import FacetSearch.Proofs.Compilation.OpenRanges
import FacetSearch.Proofs.Compilation.Arrivals
import FacetSearch.Proofs.Compilation.Settled
import FacetSearch.Proofs.Ancestry.Steady
import FacetSearch.Proofs.Service.Course
import FacetSearch.Proofs.Tile.Boxes
import FacetSearch.Proofs.Tile.Paths
import FacetSearch.Proofs.Tile.RoundTrip
import FacetSearch.Proofs.Tile.Containment
import FacetSearch.Proofs.Entity.Catalogue
import FacetSearch.Proofs.Ancestry.Calls
import FacetSearch.Proofs.Ancestry.Memory
import FacetSearch.Proofs.Ancestry.UpwardPaths
import FacetSearch.Proofs.Ancestry.ConceptChains
import FacetSearch.Proofs.Ancestry.Repeats
import FacetSearch.Proofs.Ancestry.ChainLength
import FacetSearch.Proofs.Ancestry.Names
import FacetSearch.Proofs.Ancestry.Uncached
import FacetSearch.Proofs.Ancestry.Lines
import FacetSearch.Proofs.Ancestry.SharedCache
import FacetSearch.Proofs.Ancestry.NearestMetadata
import FacetSearch.Proofs.Ancestry.Outages
import FacetSearch.Proofs.Ancestry.NearestAncestor
import FacetSearch.Proofs.Ancestry.ShownLevels
import FacetSearch.Proofs.Ancestry.ListedMetadata
import FacetSearch.Proofs.Text.Utf8
import FacetSearch.Proofs.Request.FormEncoding
import FacetSearch.Proofs.Request.QueryText
import FacetSearch.Proofs.Navigation.Links
import FacetSearch.Proofs.Compilation.Families
import FacetSearch.Proofs.Compilation.Effects
import FacetSearch.Proofs.Compilation.Order
import FacetSearch.Proofs.Compilation.Bookkeeping
import FacetSearch.Proofs.Compilation.Misses
import FacetSearch.Proofs.Request.BlankValues
import FacetSearch.Proofs.Compilation.BlankFilters
import FacetSearch.Proofs.Number.Decimal
import FacetSearch.Proofs.Tile.Keys
import FacetSearch.Proofs.Tile.Histogram
import FacetSearch.Proofs.Navigation.TileCounts
import FacetSearch.Proofs.Tile.Truncation
import FacetSearch.Proofs.Navigation.TileOptions
import FacetSearch.Proofs.Request.Choices
import FacetSearch.Proofs.Text.Pieces
import FacetSearch.Proofs.Navigation.Broadening
import FacetSearch.Proofs.Ancestry.Exchanges
import FacetSearch.Proofs.Compilation.Accepted
import FacetSearch.Proofs.Navigation.EntityOptions
import FacetSearch.Proofs.Compilation.FieldChain
import FacetSearch.Proofs.Index.Terms
import FacetSearch.Proofs.Ancestry.Lineages
import FacetSearch.Proofs.Tile.Aggregation
import FacetSearch.Proofs.Navigation.PageWalk
import FacetSearch.Proofs.Number.Binary64
import FacetSearch.Proofs.Navigation.RangeGroups
import FacetSearch.Proofs.Ancestry.Recognition
import FacetSearch.Proofs.Ancestry.AskedOnce
import FacetSearch.Proofs.Tile.Quadkeys
import FacetSearch.Proofs.Tile.Framing
import FacetSearch.Proofs.Navigation.TileDepth
import FacetSearch.Proofs.Request.Edits
import FacetSearch.Proofs.Index.FormParams
import FacetSearch.Proofs.Index.Replies
import FacetSearch.Proofs.Cache.Recency
import FacetSearch.Proofs.Tile.Years
import FacetSearch.Proofs.Navigation.CompositeValues
import FacetSearch.Proofs.Calendar.Days
import FacetSearch.Proofs.Calendar.Timestamps
import FacetSearch.Proofs.Number.Digits
import FacetSearch.Proofs.Number.WholeNumbers
import FacetSearch.Proofs.Index.DatePoints
import FacetSearch.Proofs.Compilation.RangeHulls
import FacetSearch.Proofs.Json.Scalars
import FacetSearch.Proofs.Json.Printing
import FacetSearch.Proofs.Json.Records
import FacetSearch.Proofs.Entity.Records
import FacetSearch.Proofs.Entity.Snapshots
