import LineForth.Text

/-!
# Buffers

A buffer collects pieces of text.  The pieces are kept latest first, with the number of their bytes,
so adding one does not touch the others.  `Buffer.bytes` is what the buffer holds.
-/

namespace LineForth

structure Buffer where
  pieces : List Text := []
  size : Nat := 0
  size_eq : size = pieces.flatten.length := by rfl
deriving DecidableEq

namespace Buffer

def bytes (b : Buffer) : Text := b.pieces.reverse.flatten

def empty : Buffer := {}

def append (b : Buffer) (p : Text) : Buffer where
  pieces := p :: b.pieces
  size := p.length + b.size
  size_eq := by simp [b.size_eq]

def ofText (t : Text) : Buffer := empty.append t

@[simp]
theorem bytes_empty : empty.bytes = [] := rfl

@[simp]
theorem bytes_append (b : Buffer) (p : Text) : (b.append p).bytes = b.bytes ++ p := by
  simp [bytes, append]

@[simp]
theorem bytes_ofText (t : Text) : (ofText t).bytes = t := by simp [ofText]

theorem size_eq_length (b : Buffer) : b.size = b.bytes.length := by
  simp [b.size_eq, bytes]

end Buffer

end LineForth
