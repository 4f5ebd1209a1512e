import WireSchema.Text.Basic
set_option autoImplicit false

namespace WireSchema

structure Span where
  start : UInt32
  length : UInt32
  deriving DecidableEq, Repr, Inhabited

namespace Span

def stop (s : Span) : UInt32 := s.start + s.length

def between (first last : Span) : Span := ⟨first.start,last.stop - first.start⟩

@[simp] theorem start_between (a b : Span) : (between a b).start = a.start := rfl

@[simp] theorem stop_between (a b : Span) : (between a b).stop = b.stop := by
  have h : a.start + (b.stop - a.start) = b.stop := by
    rw [UInt32.add_comm,UInt32.sub_add_cancel]
  exact h

def ofText (start : UInt32) (t : Text) : Span := ⟨start,t.length.toUInt32⟩

end Span

/-- A line and a column, both counted from one, the column in bytes. -/
structure Position where
  line : Nat
  column : Nat
  deriving DecidableEq, Repr, Inhabited

namespace Position

def first : Position := ⟨1,1⟩

def advance (p : Position) (c : UInt8) : Position :=
  if c = Text.newline then ⟨p.line + 1,1⟩ else ⟨p.line,p.column + 1⟩

/-- The position of an offset in a source; an offset past the end has the position of the end. -/
def ofOffset (src : Text) (offset : UInt32) : Position :=
  (src.take offset.toNat).foldl advance first

def toText (p : Position) : Text :=
  Text.cat [Text.ofNat p.line,":",Text.ofNat p.column]

end Position

end WireSchema
