import Xv6.Source.Ulib

/-!
# kernel/printf.c and user/printf.c

The two functions that print a format with its arguments. A string is the list of its bytes in front of
the NUL, and the result is what is given to `consputc` or `putc`; `none` is a digit behind the end of
the 16 bytes for them, or an argument that is not what the format asks for.
-/
namespace Xv6.Source.Printf

open Xv6.Source.Ulib

abbrev percent : UInt8 := '%'.toUInt8
abbrev minus : UInt8 := '-'.toUInt8

/-- What `va_arg` takes. A null pointer is no string. -/
inductive Arg where
  | int (x : Int32)
  | long (x : UInt64)
  | string (s : Option Bytes)

/-- `sizeof(buf)` of `printint`. -/
def bufSize : Nat := 16

/-- `do { buf[i++] = digits[x % base]; } while((x /= base) != 0)`, with the places that are left. -/
def digitLoop (digits : Bytes) (base : UInt32) : Nat → UInt32 → Bytes → Option Bytes
  | 0, _, _ => none
  | room + 1, x, buf =>
    let buf := buf ++ [digits.getD (x % base).toNat 0]
    if x / base = 0 then some buf else digitLoop digits base room (x / base) buf

/-- `printint` of both files, which differ in the digits. -/
def printint (digits : Bytes) (xx : Int32) (base : UInt32) (sign : Bool) : Option Bytes :=
  let neg := sign && decide (xx < 0)
  let x := if neg then (-xx).toUInt32 else xx.toUInt32
  (digitLoop digits base bufSize x []).bind fun buf =>
    if neg then if buf.length < bufSize then some (buf ++ [minus]).reverse else none
    else some buf.reverse

/-- `for (i = 0; i < (sizeof(uint64) * 2); i++, x <<= 4)`, with the rounds that are left. -/
def ptrLoop (digits : Bytes) : Nat → UInt64 → Bytes
  | 0, _ => []
  | n + 1, x => digits.getD (x >>> 60).toNat 0 :: ptrLoop digits n (x <<< 4)

def printptr (digits : Bytes) (x : UInt64) : Bytes := literal ['0', 'x'] ++ ptrLoop digits 16 x

/-- What is printed for `%s`. -/
def printstr (s : Option Bytes) : Bytes := s.getD (literal ['(', 'n', 'u', 'l', 'l', ')'])

namespace Kernel

def digits : Bytes :=
  literal ['0', '1', '2', '3', '4', '5', '6', '7', '8', '9', 'a', 'b', 'c', 'd', 'e', 'f']

/-- The switch of `printf`, and the arguments behind those that it takes. -/
def directive (c : UInt8) (ap : List Arg) : Option (Bytes × List Arg) :=
  if c = 'd'.toUInt8 then
    match ap with
    | .int x :: ap => (printint digits x 10 true).map (·, ap)
    | _ => none
  else if c = 'x'.toUInt8 then
    match ap with
    | .int x :: ap => (printint digits x 16 true).map (·, ap)
    | _ => none
  else if c = 'p'.toUInt8 then
    match ap with
    | .long x :: ap => some (printptr digits x, ap)
    | _ => none
  else if c = 's'.toUInt8 then
    match ap with
    | .string s :: ap => some (printstr s, ap)
    | _ => none
  else if c = percent then some ([percent], ap)
  else some ([percent, c], ap)

def printf : Bytes → List Arg → Option Bytes
  | [], _ => some []
  | [c], _ => if c ≠ percent then some [c] else some []
  | c :: c' :: fmt, ap =>
    if c ≠ percent then (printf (c' :: fmt) ap).map (c :: ·)
    else (directive c' ap).bind fun (out, ap) => (printf fmt ap).map (out ++ ·)

end Kernel

namespace User

def digits : Bytes :=
  literal ['0', '1', '2', '3', '4', '5', '6', '7', '8', '9', 'A', 'B', 'C', 'D', 'E', 'F']

/-- The branch of `vprintf` for the state `'%'`. -/
def directive (c : UInt8) (ap : List Arg) : Option (Bytes × List Arg) :=
  if c = 'd'.toUInt8 then
    match ap with
    | .int x :: ap => (printint digits x 10 true).map (·, ap)
    | _ => none
  else if c = 'l'.toUInt8 then
    match ap with
    | .long x :: ap => (printint digits x.toUInt32.toInt32 10 false).map (·, ap)
    | _ => none
  else if c = 'x'.toUInt8 then
    match ap with
    | .int x :: ap => (printint digits x 16 false).map (·, ap)
    | _ => none
  else if c = 'p'.toUInt8 then
    match ap with
    | .long x :: ap => some (printptr digits x, ap)
    | _ => none
  else if c = 's'.toUInt8 then
    match ap with
    | .string s :: ap => some (printstr s, ap)
    | _ => none
  else if c = 'c'.toUInt8 then
    match ap with
    | .int x :: ap => some ([x.toUInt32.toUInt8], ap)
    | _ => none
  else if c = percent then some ([percent], ap)
  else some ([percent, c], ap)

/-- The state is true behind a `%`. -/
def vprintf : Bool → Bytes → List Arg → Option Bytes
  | _, [], _ => some []
  | false, c :: fmt, ap =>
    if c = percent then vprintf true fmt ap else (vprintf false fmt ap).map (c :: ·)
  | true, c :: fmt, ap => (directive c ap).bind fun (out, ap) => (vprintf false fmt ap).map (out ++ ·)

end User
end Xv6.Source.Printf
