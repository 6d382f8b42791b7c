import ShareNotes.Lib.Interaction
import ShareNotes.Lib.Monitors
import ShareNotes.Lib.Linearization
import ShareNotes.Lib.KeyedRows
import ShareNotes.Lib.Decimal
import ShareNotes.Lib.Slices
import ShareNotes.Lib.HtmlForm
import ShareNotes.Token
import ShareNotes.NoteRecord
import ShareNotes.Linkify
import ShareNotes.Manager
import ShareNotes.Calls
import ShareNotes.Handlers
import ShareNotes.Routing
import ShareNotes.Runs
import ShareNotes.Effects
import ShareNotes.Transactions
import ShareNotes.TokenAuthenticity
import ShareNotes.FormPages
import ShareNotes.HandlerRuns
import ShareNotes.ConfirmedNote
import ShareNotes.StoreRefinement
import ShareNotes.ConcurrentListings
import ShareNotes.SequentialNotes
import ShareNotes.DatabaseCalls
import ShareNotes.Linearizability
import ShareNotes.LinkScan
import ShareNotes.LinkedText
import ShareNotes.LinkAnchors
import ShareNotes.Lib.Placements
import ShareNotes.ConcurrentDates
import ShareNotes.ConcurrentEdits
import ShareNotes.UrlGrammar
import ShareNotes.NotePaths
import ShareNotes.ListingErrors
import ShareNotes.FilterPages
import ShareNotes.Lib.CurlForm
import ShareNotes.PastedNotes
import ShareNotes.Lib.HtmlTokens
import ShareNotes.NoteMarkup
import ShareNotes.Lib.Streams
import ShareNotes.TokenStrings
import ShareNotes.RateLimiter
import ShareNotes.LinkSchemes
import ShareNotes.Lib.Url
import ShareNotes.MuxRedirects
import ShareNotes.TypedFilters
import ShareNotes.OpenDatabase
import ShareNotes.Lib.FormControls
import ShareNotes.EditForms
import ShareNotes.LinkCoverage
import ShareNotes.AnchorMarkup
import ShareNotes.Lib.Liveness
import ShareNotes.Availability
import ShareNotes.Lib.Hypertext
import ShareNotes.PageItems
import ShareNotes.ServedForms
import ShareNotes.ServedNotes
