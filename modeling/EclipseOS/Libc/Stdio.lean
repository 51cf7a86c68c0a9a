import Mathlib.Data.Int.Basic
import EclipseOS.Libc.Printf

/-!
# Streams

The output functions of the hosted C library: `FILE` calls go through a buffer,
`printf`, `puts` and `putchar` write to descriptor 1 themselves.  The kernel may
refuse a write; one that it does not refuse takes all bytes.
-/

namespace EclipseOS

namespace Libc

def EOF : ℤ := -1
def FILE_BUFSIZ : ℕ := 256

/-- `buf` holds the first `pos` bytes of the source's array. -/
structure File where
  fd : ℕ
  writable : Bool
  lineBuffered : Bool
  error : Bool
  buf : List UInt8

inductive Stream
  | stdin
  | stdout
  | stderr
  deriving DecidableEq

/-- A process: its streams and what its descriptors have received.  `refuse`
says which of its writes fail, `writes` counts them. -/
structure Host where
  file : Stream → File
  out : ℕ → List UInt8
  refuse : ℕ → Bool
  writes : ℕ

/-- A program starts with empty buffers. -/
def Host.start (refuse : ℕ → Bool) : Host where
  file := fun
    | .stdin => ⟨0, false, false, false, []⟩
    | .stdout => ⟨1, true, true, false, []⟩
    | .stderr => ⟨2, true, false, false, []⟩
  out := fun _ ↦ []
  refuse := refuse
  writes := 0

namespace Host

variable (h : Host)

def modify (f : Stream) (g : File → File) : Host :=
  { h with file := Function.update h.file f (g (h.file f)) }

def write (fd : ℕ) (bytes : List UInt8) : ℤ × Host :=
  if h.refuse h.writes then (-1, { h with writes := h.writes + 1 })
  else (bytes.length, { h with
    out := Function.update h.out fd (h.out fd ++ bytes)
    writes := h.writes + 1 })

def fflush (f : Stream) : ℤ × Host :=
  if (h.file f).buf = [] then (0, h)
  else
    let (n, h) := h.write (h.file f).fd (h.file f).buf
    let h := h.modify f fun x ↦ { x with buf := [] }
    if n < 0 then (EOF, h.modify f fun x ↦ { x with error := true }) else (0, h)

/-- The byte that an `int` is stored as. -/
def byteOf (c : ℤ) : UInt8 := UInt8.ofNat (c % 256).toNat

def fputc (c : ℤ) (f : Stream) : ℤ × Host :=
  if !(h.file f).writable then (EOF, h)
  else
    let h := h.modify f fun x ↦ { x with buf := x.buf ++ [byteOf c] }
    if (h.file f).buf.length = FILE_BUFSIZ ∨ (h.file f).lineBuffered = false ∨ c = 0x0A then
      let (r, h) := h.fflush f
      if r = EOF then (EOF, h) else (c, h)
    else (c, h)

/-- The value of a `char`, which is signed. -/
def signedChar (b : UInt8) : ℤ := if b < 0x80 then b.toNat else b.toNat - 256

def fputs (f : Stream) : List UInt8 → Host → ℤ × Host
  | [], h => (0, h)
  | b :: s, h =>
      let (r, h) := h.fputc (signedChar b) f
      if r = EOF then (EOF, h) else fputs f s h

/-- The loop of `fwrite`, from byte `i` on. -/
def fwriteLoop (f : Stream) (size nmemb : ℕ) : ℕ → List UInt8 → Host → ℕ × Host
  | _, [], h => (nmemb, h)
  | i, b :: bytes, h =>
      let (r, h) := h.fputc b.toNat f
      if r = EOF then (i / size, h) else fwriteLoop f size nmemb (i + 1) bytes h

end Host

/-- Items in memory: what `fwrite` gets. -/
structure Items where
  bytes : List UInt8
  size : ℕ
  nmemb : ℕ
  length_eq : bytes.length = size * nmemb
  fits : bytes.length < 2 ^ 32

namespace Host

def fwrite (h : Host) (p : Items) (f : Stream) : ℕ × Host :=
  if p.size = 0 ∨ p.nmemb = 0 then (0, h) else fwriteLoop f p.size p.nmemb 0 p.bytes h

def putchar (h : Host) (ic : ℤ) : ℤ × Host :=
  let (n, h) := h.write 1 [byteOf ic]
  if n ≠ 1 then
    let (r, h) := h.fputc (signedChar (byteOf ic)) .stdout
    (if r = EOF then EOF else ic, h)
  else (ic, h)

def puts (h : Host) (s : CString) : ℤ × Host :=
  let (n, h) := h.write 1 s.bytes
  if n ≠ s.bytes.length then (EOF, h)
  else
    let (n, h) := h.write 1 [NEWLINE]
    if n ≠ 1 then (EOF, h) else (1, h)

def emitStdout (b : UInt8) (h : Host) : Bool × Host :=
  let (r, h) := h.putchar b.toNat
  (r ≠ EOF, h)

def emitFile (f : Stream) (b : UInt8) (h : Host) : Bool × Host :=
  let (r, h) := h.fputc b.toNat f
  (r ≠ EOF, h)

/-- `printf` and `vprintf`. -/
def printf (h : Host) (format : CString) (args : List Arg) : Option (Option ℕ × Host) :=
  vprintfGen emitStdout format args h

/-- `fprintf` and `vfprintf`. -/
def fprintf (h : Host) (f : Stream) (format : CString) (args : List Arg) : Option (Option ℕ × Host) :=
  vprintfGen (emitFile f) format args h

/-- `exit`, as far as the streams go. -/
def exit (h : Host) : Host := ((h.fflush .stdout).2.fflush .stderr).2

end Host

/-- Calls that put bytes on the standard output. -/
inductive OutputCall
  | printf (f : Formatted)
  | vprintf (f : Formatted)
  | puts (s : CString)
  | putchar (ic : ℤ)
  | fputc (c : ℤ)
  | fputs (s : CString)
  | fwrite (p : Items)
  | fprintf (f : Formatted)

namespace OutputCall

def run (h : Host) : OutputCall → Option Host
  | printf f => (h.printf f.format f.args).map Prod.snd
  | vprintf f => (h.printf f.format f.args).map Prod.snd
  | puts s => some (h.puts s).2
  | putchar ic => some (h.putchar ic).2
  | fputc c => some (h.fputc c .stdout).2
  | fputs s => some (h.fputs .stdout s.bytes).2
  | fwrite p => some (h.fwrite p .stdout).2
  | fprintf f => (h.fprintf .stdout f.format f.args).map Prod.snd

/-- The bytes that the call is asked to write. -/
def bytes : OutputCall → List UInt8
  | printf f => f.text
  | vprintf f => f.text
  | puts s => s.bytes ++ [NEWLINE]
  | putchar ic => [Host.byteOf ic]
  | fputc c => [Host.byteOf c]
  | fputs s => s.bytes
  | fwrite p => p.bytes
  | fprintf f => f.text

end OutputCall

end Libc

end EclipseOS
