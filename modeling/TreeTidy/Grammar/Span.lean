/-! Source regions: half-open byte ranges, which nodes made by rules inherit from what they replace. -/
namespace TreeTidy

structure Span where
  start : Nat
  stop : Nat
  deriving DecidableEq, Repr

namespace Span

/-- The span of a node that has no place in the text. -/
def none : Span := ⟨0, 0⟩

instance : Inhabited Span := ⟨none⟩

/-- The least span with both in it. -/
def cover (a b : Span) : Span := ⟨min a.start b.start, max a.stop b.stop⟩

def isEmpty (s : Span) : Bool := decide (s.stop ≤ s.start)

/-- Whether `a` starts first, or ends first at an equal start. -/
def before (a b : Span) : Bool :=
  decide (a.start < b.start) || (decide (a.start = b.start) && decide (a.stop < b.stop))

def text (s : Span) : String := toString s.start ++ ".." ++ toString s.stop

/-- `inner` lies within `outer`. -/
def Within (inner outer : Span) : Prop := outer.start ≤ inner.start ∧ inner.stop ≤ outer.stop

instance (a b : Span) : Decidable (Within a b) := inferInstanceAs (Decidable (_ ∧ _))

theorem within_cover_left (a b : Span) : a.Within (a.cover b) :=
  ⟨Nat.min_le_left _ _, Nat.le_max_left _ _⟩

theorem within_cover_right (a b : Span) : b.Within (a.cover b) :=
  ⟨Nat.min_le_right _ _, Nat.le_max_right _ _⟩

theorem Within.refl (a : Span) : a.Within a := ⟨Nat.le_refl _, Nat.le_refl _⟩

theorem Within.trans {a b c : Span} (h : a.Within b) (h' : b.Within c) : a.Within c :=
  ⟨Nat.le_trans h'.1 h.1, Nat.le_trans h.2 h'.2⟩

theorem start_lt_stop_cover {a : Span} (h : a.start < a.stop) (b : Span) :
    (a.cover b).start < (a.cover b).stop :=
  Nat.lt_of_le_of_lt (Nat.min_le_left _ _) (Nat.lt_of_lt_of_le h (Nat.le_max_left _ _))

theorem Within.cover {a b c : Span} (ha : a.Within c) (hb : b.Within c) : (a.cover b).Within c :=
  ⟨Nat.le_min.mpr ⟨ha.1, hb.1⟩, Nat.max_le.mpr ⟨ha.2, hb.2⟩⟩

end Span

end TreeTidy
