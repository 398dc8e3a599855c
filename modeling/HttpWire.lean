import HttpWire.Byte
import HttpWire.Error
import HttpWire.Text.Utf8
import HttpWire.Text.Blank
import HttpWire.Text.Base64
import HttpWire.Text.Percent
import HttpWire.Method
import HttpWire.Status
import HttpWire.NameMap
import HttpWire.Headers
import HttpWire.Url.Basic
import HttpWire.Url.Fields
import HttpWire.Url.Parse
import HttpWire.Head.Basic
import HttpWire.Head.Grammar
import HttpWire.Head.Ending
import HttpWire.Framing
import HttpWire.Chunked.SizeLine
import HttpWire.Chunked.Decoder
import HttpWire.Reader.Basic
import HttpWire.Reader.Feed
import HttpWire.Reader.Room
import HttpWire.Message
import HttpWire.Credentials
import HttpWire.Request
import HttpWire.Response
import HttpWire.Proofs.Span
import HttpWire.Proofs.Trim
import HttpWire.Proofs.Grammar
import HttpWire.Proofs.Text.Utf8
import HttpWire.Proofs.Text.Chars
import HttpWire.Proofs.Text.Base64
import HttpWire.Proofs.Text.Percent
import HttpWire.Proofs.Text.Lossy
import HttpWire.Proofs.NameMap
import HttpWire.Proofs.Headers
import HttpWire.Proofs.Headers.Edits
import HttpWire.Proofs.Credentials
import HttpWire.Proofs.Url.Split
import HttpWire.Proofs.Url.Parts
import HttpWire.Proofs.Url.Layout
import HttpWire.Proofs.Url.Fields
import HttpWire.Proofs.Url.Query
import HttpWire.Proofs.Url.Params
import HttpWire.Proofs.Url.Target
import HttpWire.Proofs.Url.Grammar
import HttpWire.Proofs.Url.RoundTrip
import HttpWire.Proofs.Url.Text
import HttpWire.Proofs.Url.Stable
import HttpWire.Proofs.Chunked.Cut
import HttpWire.Proofs.Chunked.Grammar
import HttpWire.Proofs.Head.Ending
import HttpWire.Proofs.Head.Cut
import HttpWire.Proofs.Head.Outcome
import HttpWire.Proofs.Head.EmptyLine
import HttpWire.Proofs.Head.Written
import HttpWire.Proofs.Head.Plain
import HttpWire.Proofs.Head.Grammar
import HttpWire.Proofs.Framing
import HttpWire.Proofs.Framing.Rules
import HttpWire.Proofs.Framing.Lines
import HttpWire.Proofs.Reader.Progress
import HttpWire.Proofs.Reader.Step
import HttpWire.Proofs.Reader.Run
import HttpWire.Proofs.Reader.Cut
import HttpWire.Proofs.Reader.Pieces
import HttpWire.Proofs.Reader.Calls
import HttpWire.Proofs.Reader.Protocol
import HttpWire.Proofs.Reader.Consumption
import HttpWire.Proofs.Reader.EmptyLine
import HttpWire.Proofs.Reader.Room
import HttpWire.Proofs.Reader.Whole
import HttpWire.Proofs.Reader.Boundary
import HttpWire.Proofs.Reader.Reuse
import HttpWire.Proofs.Reader.Balance
import HttpWire.Proofs.Reader.Between
import HttpWire.Proofs.Reader.Failure
import HttpWire.Proofs.Reader.Limits
import HttpWire.Proofs.Reader.Heads
import HttpWire.Proofs.Reader.Codings
import HttpWire.Proofs.Reader.EndOfInput
import HttpWire.Proofs.Message
import HttpWire.Proofs.Message.Written
import HttpWire.Proofs.Message.Receive
import HttpWire.Proofs.Message.Completed
import HttpWire.Proofs.Message.Stored
import HttpWire.Proofs.Request.Written
import HttpWire.Proofs.Request.Build
import HttpWire.Proofs.Receiver
import HttpWire.Proofs.Request.Receive
import HttpWire.Proofs.Request.RoundTrip
import HttpWire.Proofs.Request.Reuse
import HttpWire.Proofs.Request.Authorization
import HttpWire.Proofs.Response.Receive
import HttpWire.Proofs.Response.Written
import HttpWire.Proofs.Response.RoundTrip
import HttpWire.Proofs.Response.Forward
import HttpWire.Proofs.Response.Pipeline
import HttpWire.Proofs.Response.Reuse
import HttpWire.Proofs.Leftover
import HttpWire.Proofs.Phases
import HttpWire.Proofs.Message.Answers
import HttpWire.Proofs.Arrival
