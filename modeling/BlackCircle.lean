import BlackCircle.Json.Grammar
import BlackCircle.Json.Print
import BlackCircle.Json.RoundTrip
import BlackCircle.Json.Escapes
import BlackCircle.Json.Literals
import BlackCircle.Json.Entities
import BlackCircle.Json.Surrogates
import BlackCircle.Json.Places
import BlackCircle.Json.Numbers
import BlackCircle.Json.Lexemes
import BlackCircle.Json.Derivations
import BlackCircle.Http.Progress
import BlackCircle.Http.Truncation
import BlackCircle.Http.TransferCoding
import BlackCircle.Http.Resync
import BlackCircle.Http.BodyEnd
import BlackCircle.Http.ChunkedReader
import BlackCircle.Http.CountedReader
import BlackCircle.Http.HeadText
import BlackCircle.Http.Params
import BlackCircle.Http.Request
import BlackCircle.Http.Spelling
import BlackCircle.Http.Wire
import BlackCircle.Oauth.Encode
import BlackCircle.Oauth.TokenRequester
import BlackCircle.Oauth.Receiver
import BlackCircle.Oauth.SignedChar
import BlackCircle.Oauth.Base64
import BlackCircle.Twitter.Requests
import BlackCircle.Twitter.SignedSent
import BlackCircle.Twitter.SigningInputs
import BlackCircle.Twitter.Sending
import BlackCircle.Foundation.Container
import BlackCircle.Twitter.Objects
import BlackCircle.Twitter.Stores
import BlackCircle.Twitter.Integrity
import BlackCircle.Twitter.Processing
import BlackCircle.Twitter.Levels
import BlackCircle.Twitter.Arrival
import BlackCircle.Twitter.Deletion
import BlackCircle.Twitter.Timeline
import BlackCircle.Twitter.UserStream
import BlackCircle.Twitter.Reconnect
import BlackCircle.Foundation.InputStream
import BlackCircle.Foundation.Unicode
import BlackCircle.Console.Commands
import BlackCircle.Console.LineDiscipline
import BlackCircle.Console.Conversion
import BlackCircle.Console.LineEditor
import BlackCircle.Foundation.Transcoding
import BlackCircle.Console.Iconv
import BlackCircle.Console.Bounds
import BlackCircle.Console.Slices
import BlackCircle.Console.WideUnits
import BlackCircle.Console.Backspaces
import BlackCircle.Http.BodySizes
import BlackCircle.Http.SizeLines
import BlackCircle.Foundation.SearchTree
import BlackCircle.Twitter.DateIndex
import BlackCircle.Twitter.Determinacy
import BlackCircle.Foundation.Terminal
import BlackCircle.Foundation.EventRun
import BlackCircle.Console.OutputHandler
import BlackCircle.Console.Pipeline
import BlackCircle.Twitter.Service
import BlackCircle.Twitter.Requested
import BlackCircle.Twitter.Entered
import BlackCircle.Twitter.Schedules
import BlackCircle.Twitter.Provider
import BlackCircle.Twitter.Authorization
import BlackCircle.Twitter.Authorized
import BlackCircle.Twitter.Listing
import BlackCircle.Console.Redirection
import BlackCircle.Console.ReadThreads
import BlackCircle.Json.Insertions
import BlackCircle.Console.Printing
import BlackCircle.Twitter.Display
