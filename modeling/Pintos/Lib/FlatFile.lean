import Pintos.Lib.Buffer

/-!
# Flat files

A file as its user sees it: one array of bytes that can be read and written anywhere, and that
grows by zeros.
-/

/-- A length and the bytes up to it; past its end a file is zero. -/
@[ext]
structure FlatFile where
  length : Nat
  bytes : Buffer
  clear : ∀ position, length ≤ position → bytes position = 0

namespace FlatFile

/-- A file of zeros. -/
def zeros (length : Nat) : FlatFile := ⟨length, Buffer.zeros, fun _ _ => rfl⟩

/-- Make a file at least this long. -/
def extend (file : FlatFile) (length : Nat) : FlatFile where
  length := max file.length length
  bytes := file.bytes
  clear position past := file.clear position (by omega)

/-- Write `size` bytes of a buffer at an offset, past the end too. -/
def write (file : FlatFile) (buffer : Buffer) (size offset : Nat) : FlatFile where
  length := max file.length (offset + size)
  bytes position := if offset ≤ position ∧ position < offset + size then
      buffer (position - offset)
    else
      file.bytes position
  clear position past := by
    rw [if_neg (by omega)]
    exact file.clear position (by omega)

/-- The number of bytes that a read returns. -/
def readCount (file : FlatFile) (size offset : Nat) : Nat := min size (file.length - offset)

/-- The buffer after a read. -/
def read (file : FlatFile) (buffer : Buffer) (size offset : Nat) : Buffer :=
  buffer.copy 0 file.bytes offset (file.readCount size offset)

end FlatFile
