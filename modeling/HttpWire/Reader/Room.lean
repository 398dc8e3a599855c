import HttpWire.Reader.Feed
/-!
# Room for field lines

Before a head is parsed a table is set up that has room for as many field lines as the reader puts
up with. If there can be no memory for it, the program stops there, and the call that came to the
head does not come back. What counts here is the largest object there can be at all; how much memory
a machine has is left out.
-/

namespace HttpWire

/-- Whether there can be a table of so many field lines. A line takes 32 bytes there, for where its
name and its value are and how long they are, and no object takes up half of all addresses. -/
def Limits.hasRoom (limits : Limits) : Bool := 32 * limits.maxFields < UInt64.size / 2

namespace Reader

variable {kind : Kind}

/-- Whether a step on this input comes to a head that it parses. -/
def parsesHead (r : Reader kind) (input : Bytes) : Bool :=
  match r.state with
  | .head buffer =>
    let taken := input.take (r.limits.maxHeadLength - buffer.size)
    -- Line breaks before a head are skipped first.
    let skips := buffer.isEmpty && input.head?.any Byte.isBreak
    !skips && !taken.isEmpty && Head.completesEnding buffer taken
  | _ => false

/-- Whether a run over this input comes to a head that it parses. -/
def comesToHead (r : Reader kind) (input : Bytes) : Bool :=
  match input with
  | [] => false
  | b :: rest =>
    if r.parsesHead (b :: rest) then true
    else
      match r.step (b :: rest) with
      | ⟨_, r, .ok (n + 1)⟩ => comesToHead r (rest.drop n)
      | _ => false
termination_by input.length
decreasing_by simp only [List.length_drop, List.length_cons]; omega

/-- Whether a call with this input comes to a head and lacks the room to parse it. -/
def lacksRoom (r : Reader kind) (input : Bytes) : Bool :=
  !r.limits.hasRoom && r.comesToHead input

/-- Feeds the next stretch of input, if the call comes back. -/
def call? (r : Reader kind) (input : Bytes) : Option (Progress kind) :=
  if r.lacksRoom input then none else some (r.feed input)

end Reader

end HttpWire
