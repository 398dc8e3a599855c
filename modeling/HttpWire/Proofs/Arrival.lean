import HttpWire.Proofs.Request.Receive
import HttpWire.Proofs.Response.Receive
/-!
# How bytes arrive

A request and a response are filled with what arrives, in whatever pieces that is. They end as if
all had arrived at once, and what they answer to the pieces agrees with what they would have
answered to the whole.
-/

namespace HttpWire

/-- **It makes no difference how a stream arrives.** However it is cut into pieces, a new request
that parses them in turn ends as a new request does that parses the stream in one call, in all its
parts. What it answers to the pieces agrees with the answer to that call: either all is consumed,
and the last piece is answered as the stream is; or there is an error in the stream, which is the
answer to one piece and to all behind it; or the stream switches protocols, and what is left over of
the pieces is what is left over of the stream. The same goes for a new response. -/
theorem parseAll_agrees_parse (limits : Limits) (pieces : List Bytes) (hsome : pieces ≠ [])
    (hne : ∀ piece ∈ pieces, piece ≠ []) :
    (let whole := (Request.withLimits limits).parse pieces.flatten
     let cut := (Request.withLimits limits).parseAll pieces
     cut.1 = whole.1 ∧ Message.AnswersAgree pieces cut.2 whole.2) ∧
    (let whole := (Response.withLimits limits).parse pieces.flatten
     let cut := (Response.withLimits limits).parseAll pieces
     cut.1 = whole.1 ∧ Message.AnswersAgree pieces cut.2 whole.2) := by
  have hnew : (Request.receiver.reader (Request.withLimits limits)).Reachable := .new limits
  have hnew' : (Response.receiver.reader (Response.withLimits limits)).Reachable := .new limits
  exact ⟨⟨Request.receiver.fst_parseAll_eq hnew hsome hne,
      Request.receiver.answersAgree_parseAll hnew hsome hne⟩,
    Response.receiver.fst_parseAll_eq hnew' hsome hne,
    Response.receiver.answersAgree_parseAll hnew' hsome hne⟩

/-- A request with credentials and a body, cut inside its empty line, and one for a tunnel, with
bytes behind it in two pieces. -/
def piecesOfTunnel : List Bytes :=
  ["POST /a HTTP/1.1\r\nAuthorization: Basic dTpw\r\nContent-Length: 2\r\n\r", "\nz",
    "zCONNECT b:1 HTTP/1.1\r\n\r\nx", "yz"].map Utf8.encode

theorem piecesOfTunnel_agrees :
    (piecesOfTunnel ≠ [] ∧ ∀ piece ∈ piecesOfTunnel, piece ≠ []) ∧
      ((Request.withLimits {}).parseAll piecesOfTunnel).1 =
        ((Request.withLimits {}).parse piecesOfTunnel.flatten).1 ∧
      Message.AnswersAgree piecesOfTunnel
        [.ok .incomplete, .ok .incomplete, .error (.unconsumed 25 26), .error (.unconsumed 0 2)]
        (.error (.unconsumed 92 95)) ∧
      Message.AnswersAgree piecesOfTunnel
        (.ok .incomplete :: List.replicate 3 (.error .invalidVersion))
        (.error .invalidVersion) := by
  have hsome : piecesOfTunnel ≠ [] := by decide
  have hne : ∀ piece ∈ piecesOfTunnel, piece ≠ [] := by decide +kernel
  obtain ⟨⟨hsame, hrequest⟩, -, hresponse⟩ := parseAll_agrees_parse {} piecesOfTunnel hsome hne
  refine ⟨⟨hsome, hne⟩, hsame, ?_, ?_⟩
  · have hanswers : ((Request.withLimits {}).parseAll piecesOfTunnel).2 =
        [.ok .incomplete, .ok .incomplete, .error (.unconsumed 25 26),
          .error (.unconsumed 0 2)] := by
      decide +kernel
    have hwhole : ((Request.withLimits {}).parse piecesOfTunnel.flatten).2 =
        .error (.unconsumed 92 95) := by
      decide +kernel
    rwa [hanswers, hwhole] at hrequest
  · have hanswers : ((Response.withLimits {}).parseAll piecesOfTunnel).2 =
        .ok .incomplete :: List.replicate 3 (.error .invalidVersion) := by
      decide +kernel
    have hwhole : ((Response.withLimits {}).parse piecesOfTunnel.flatten).2 =
        .error .invalidVersion := by
      decide +kernel
    rwa [hanswers, hwhole] at hresponse

end HttpWire
