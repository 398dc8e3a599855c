import HttpWire.Byte
/-!
# Base64

The standard alphabet with padding. Reading is strict: it accepts exactly what writing
produces, so the padding is required and the bits that the last group does not use are zero.
-/

namespace HttpWire.Base64

/-- The character for a value below 64. -/
def symbol (value : Nat) : Char :=
  if value < 26 then Char.ofNat (0x41 + value)
  else if value < 52 then Char.ofNat (0x61 + (value - 26))
  else if value < 62 then Char.ofNat (0x30 + (value - 52))
  else if value = 62 then '+'
  else '/'

/-- The value that a character of the alphabet stands for. -/
def value? (c : Char) : Option Nat :=
  if 'A' ≤ c && c ≤ 'Z' then some (c.toNat - 0x41)
  else if 'a' ≤ c && c ≤ 'z' then some (c.toNat - 0x61 + 26)
  else if '0' ≤ c && c ≤ '9' then some (c.toNat - 0x30 + 52)
  else if c = '+' then some 62
  else if c = '/' then some 63
  else none

/-- The sign that fills up the last group. -/
def pad : Char := '='

/-! ## Writing -/

/-- The base64 of some bytes: four characters for every three bytes, and padding where the
last group has only one or two. -/
def encode : Bytes → List Char
  | [] => []
  | [a] =>
    let n := a.toNat
    [symbol (n / 4), symbol (n % 4 * 16), pad, pad]
  | [a, b] =>
    let n := a.toNat * 256 + b.toNat
    [symbol (n / 1024), symbol (n / 16 % 64), symbol (n % 16 * 4), pad]
  | a :: b :: c :: rest =>
    let n := (a.toNat * 256 + b.toNat) * 256 + c.toNat
    symbol (n / 262144) :: symbol (n / 4096 % 64) :: symbol (n / 64 % 64) :: symbol (n % 64) ::
      encode rest

/-! ## Reading -/

/-- The bytes of the last group, which may be padded. -/
def decodeLast? (p q r s : Char) : Option Bytes := do
  let i ← value? p
  let j ← value? q
  if r = pad then
    if s = pad && j % 16 == 0 then some [(i * 4 + j / 16).toUInt8] else none
  else
    let k ← value? r
    if s = pad then
      if k % 4 == 0 then some [(i * 4 + j / 16).toUInt8, (j % 16 * 16 + k / 4).toUInt8] else none
    else
      let l ← value? s
      some [(i * 4 + j / 16).toUInt8, (j % 16 * 16 + k / 4).toUInt8, (k % 4 * 64 + l).toUInt8]

/-- The bytes whose base64 the text is, if there are such bytes. -/
def decode? : List Char → Option Bytes
  | [] => some []
  | [p, q, r, s] => decodeLast? p q r s
  | p :: q :: r :: s :: rest => do
    let i ← value? p
    let j ← value? q
    let k ← value? r
    let l ← value? s
    let bytes ← decode? rest
    some ((i * 4 + j / 16).toUInt8 :: (j % 16 * 16 + k / 4).toUInt8 :: (k % 4 * 64 + l).toUInt8 ::
      bytes)
  | _ => none

end HttpWire.Base64
