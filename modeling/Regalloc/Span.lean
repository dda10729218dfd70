import Regalloc.Fault

/-! Byte ranges in numbered files. -/
namespace Regalloc

/-- The bytes of `file` from `start` up to but not including `stop`. -/
structure Span where
  file : Nat
  start : Nat
  stop : Nat
  deriving DecidableEq, Repr, Inhabited

namespace Span

def shift (s : Span) (bytes : Nat) : Span := ⟨s.file, s.start + bytes, s.stop + bytes⟩

def hull (s t : Span) : Span := ⟨s.file, min s.start t.start, max s.stop t.stop⟩

def join (s t : Span) : Except Fault Span :=
  if s.file = t.file then .ok (s.hull t) else .error .filesDiffer

end Span

end Regalloc
