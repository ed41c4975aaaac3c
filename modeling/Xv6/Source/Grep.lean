import Xv6.Source.Ulib

/-!
# user/grep.c

The matcher and the loop over the lines of a file. A string of the matcher is the list of its
bytes in front of the NUL. The loop works on the buffer of 1024 bytes; `none` is an access outside
of it, or a loop that was given too few rounds.
-/
namespace Xv6.Source.Grep

open Xv6.Source.Ulib

abbrev caret : UInt8 := '^'.toUInt8
abbrev star : UInt8 := '*'.toUInt8
abbrev dollar : UInt8 := '$'.toUInt8
abbrev dot : UInt8 := '.'.toUInt8
abbrev newline : UInt8 := '\n'.toUInt8

/-- Search for `c*re` at the beginning of text, where the first argument searches for `re`. -/
def matchstar (matchhere : Bytes → Bool) (c : UInt8) : Bytes → Bool
  | [] => matchhere []
  | d :: text => matchhere (d :: text) || (decide (d = c ∨ c = dot) && matchstar matchhere c text)

/-- Search for `re` at the beginning of text. -/
def matchhere : Bytes → Bytes → Bool
  | [], _ => true
  | [c], text =>
    if c = dollar then text.isEmpty
    else match text with
    | [] => false
    | d :: _ => decide (c = dot ∨ c = d)
  | c :: e :: re, text =>
    if e = star then matchstar (fun text => matchhere re text) c text
    else match text with
    | [] => false
    | d :: text => decide (c = dot ∨ c = d) && matchhere (e :: re) text

/-- `do ... while(*text++ != '\0')`. -/
def search (re : Bytes) : Bytes → Bool
  | [] => matchhere re []
  | d :: text => matchhere re (d :: text) || search re text

/-- `match(re, text)`. -/
def matchRe (re text : Bytes) : Bool :=
  if re.head? = some caret then matchhere re.tail text else search re text

/-! ## The lines of a file -/

/-- `sizeof(buf)`. -/
def bufSize : Nat := 1024

/-- `read(fd, buf+m, asked)`: some bytes of the input, `more + 1` of them if it has so many and so many
are asked for, and what is left of the input. -/
def read (more asked : Nat) (input : Bytes) : Bytes × Bytes := input.splitAt (min asked (more + 1))

/-- What `read` stores at `p`. -/
def fill (m : Bytes) (p : Int) : Bytes → Option Bytes
  | [] => some m
  | c :: chunk => (store m p c).bind fun m => fill m (p + 1) chunk

/-- The loop over the lines in the buffer: the buffer, the start of the rest, and what has been written. -/
def lines (pattern : Bytes) : Nat → Bytes → Int → Option (Bytes × Int × List Bytes)
  | 0, _, _ => none
  | rounds + 1, buf, p =>
    match strchr buf p newline with
    | none => none
    | some none => some (buf, p, [])
    | some (some q) =>
      (store buf q 0).bind fun cut => (cstring cut p).bind fun text =>
      if matchRe pattern text then
        (store cut q newline).bind fun buf => (deref buf p).bind fun out =>
        (lines pattern rounds buf (q + 1)).map fun r => (r.1, r.2.1, out.take (q + 1 - p).toNat :: r.2.2)
      else lines pattern rounds cut (q + 1)

/-- The loop over the file: what is written. The oracle says how many bytes each call of `read` returns. -/
def grepLoop (pattern : Bytes) (more : Nat → Nat) : Nat → Bytes → Nat → Bytes → Option (List Bytes)
  | 0, _, _, _ => none
  | rounds + 1, buf, m, input =>
    let (chunk, input) := read (more rounds) (bufSize - m - 1) input
    if chunk = [] then some []
    else
      (fill buf m chunk).bind fun buf => (store buf (m + chunk.length : Nat) 0).bind fun buf =>
      (lines pattern (m + chunk.length + 1) buf 0).bind fun (buf, p, out) =>
      -- `m > 0` holds, as something has been read
      let rest := (m + chunk.length : Nat) - p
      (memmove buf 0 p rest).bind fun buf =>
      (grepLoop pattern more rounds buf rest.toNat input).map (out ++ ·)

def grep (pattern : Bytes) (more : Nat → Nat) (buf input : Bytes) : Option (List Bytes) :=
  grepLoop pattern more (input.length + 1) buf 0 input

end Xv6.Source.Grep
