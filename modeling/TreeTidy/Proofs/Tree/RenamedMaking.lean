import TreeTidy.Proofs.Tree.Clone
import TreeTidy.Proofs.Tree.RenamedEdits
/-!
Making nodes in trees that are the same under a renaming. The trees make their nodes in step, so the next
node of one is the next node of the other. A copy is the document of the node, planted anew; this does
not depend on how much else there is to copy from.
-/
namespace TreeTidy

/-- The node to be made, over renamed children. -/
def NodeSpec.rename (g : NodeId → NodeId) (s : NodeSpec) : NodeSpec :=
  { s with slots := s.slots.map (Option.map g), list := s.list.map g }

namespace SyntaxTree

variable {g : NodeId → NodeId} {k : Nat} {u t v : SyntaxTree}

section Plant

mutual

/-- Makes nodes for a document, children before their parents. -/
def plant (t : SyntaxTree) : Doc → NodeId × SyntaxTree
  | .node kind span ty slots list =>
    let (ms, t) := plantSlots t slots
    let (ns, t) := plantList t list
    (t.fresh, t.allocate kind span ty ms ns)

def plantSlots (t : SyntaxTree) : List (Option Doc) → List (Option NodeId) × SyntaxTree
  | [] => ([], t)
  | none :: slots =>
    let (ms, t) := plantSlots t slots
    (none :: ms, t)
  | some d :: slots =>
    let (m, t) := plant t d
    let (ms, t) := plantSlots t slots
    (some m :: ms, t)

def plantList (t : SyntaxTree) : List Doc → List NodeId × SyntaxTree
  | [] => ([], t)
  | d :: list =>
    let (m, t) := plant t d
    let (ms, t) := plantList t list
    (m :: ms, t)

end

section Clone

variable {f : Nat} (hf : ∀ {v : SyntaxTree}, v.Linked → ∀ n, cloneWithin f v n = v.plant (v.docWithin f n))
  (ht : t.Linked) (hv : v.Linked) (hk : t.Extends v)
include hf ht hv hk

/-- What was there before is copied as it was before. -/
private theorem cloneWithin_later {n : NodeId} (hn : n < t.size) :
    cloneWithin f v n = v.plant (t.docWithin f n) := by rw [hf hv, hk.docWithin ht hn]

private theorem mapThrough_slots (slots : List (Option NodeId)) (hs : ∀ c, some c ∈ slots → c < t.size) :
    mapThrough (mapSlot (cloneWithin f)) v slots = v.plantSlots (slots.map (Option.map (t.docWithin f))) ∧
      (mapThrough (mapSlot (cloneWithin f)) v slots).2.Linked ∧
      t.Extends (mapThrough (mapSlot (cloneWithin f)) v slots).2 := by
  induction slots generalizing v with
  | nil => exact ⟨rfl, hv, hk⟩
  | cons o slots ih =>
    have hrest : ∀ c, some c ∈ slots → c < t.size := fun c hc => hs c (.tail _ hc)
    cases o with
    | none =>
      obtain ⟨he, hl, hx⟩ := ih hv hk hrest
      refine ⟨?_, hl, hx⟩
      simp only [mapThrough, mapSlot, List.map_cons, Option.map_none, plantSlots, he]
    | some c =>
      obtain ⟨hc, -⟩ := cloneWithin_copied hv f c
      obtain ⟨he, hl, hx⟩ := ih hc.linked (hk.trans hc.kept) hrest
      refine ⟨?_, hl, hx⟩
      rw [cloneWithin_later hf ht hv hk (hs c (.head _))] at he
      simp only [mapThrough, mapSlot, List.map_cons, Option.map_some, plantSlots,
        cloneWithin_later hf ht hv hk (hs c (.head _)), he]

private theorem mapThrough_list (list : List NodeId) (hs : ∀ c ∈ list, c < t.size) :
    mapThrough (cloneWithin f) v list = v.plantList (list.map (t.docWithin f)) := by
  induction list generalizing v with
  | nil => rfl
  | cons c list ih =>
    obtain ⟨hc, -⟩ := cloneWithin_copied hv f c
    have he := ih hc.linked (hk.trans hc.kept) fun c hc => hs c (.tail _ hc)
    rw [cloneWithin_later hf ht hv hk (hs c (.head _))] at he
    simp only [mapThrough, List.map_cons, plantList,
      cloneWithin_later hf ht hv hk (hs c (.head _)), he]

end Clone

theorem cloneWithin_eq_plant (ht : t.Linked) (f : Nat) (n : NodeId) :
    cloneWithin f t n = t.plant (t.docWithin f n) := by
  induction f generalizing t n with
  | zero =>
    simp only [cloneWithin, docWithin, plant, plantSlots, plantList]
    rfl
  | succ f ih =>
    have hlt : ∀ c ∈ (t.node n).children, c < t.size := fun c hc => (ht.child hc).1
    simp only [Node.mem_children] at hlt
    obtain ⟨he, hl, hx⟩ := mapThrough_slots (fun hv n => ih hv n) ht ht (.refl t) (t.node n).slots
      fun c hc => hlt c (.inl hc)
    have he' := mapThrough_list (fun hv n => ih hv n) ht hl hx (t.node n).list fun c hc => hlt c (.inr hc)
    rw [he] at he'
    simp only [cloneWithin, docWithin, plant, he, he']

/-- To copy a node is to plant its document. -/
theorem Linked.clone_eq_plant (ht : t.Linked) (n : NodeId) : t.clone n = t.plant (t.doc n) :=
  cloneWithin_eq_plant ht _ n

end Plant

/-- Slots that are filled up hold nothing more. -/
theorem filterMap_padSlots (count : Nat) (slots : List (Option NodeId)) :
    (padSlots count slots).filterMap (fun o => o) = slots.filterMap fun o => o := by
  rw [padSlots, List.filterMap_append, List.filterMap_replicate_of_none rfl, List.append_nil]

namespace Renamed

section

variable (h : Renamed g k u t)
include h

theorem push (d : Node) : Renamed g k (u.push d) (t.push (d.rename g)) where
  injective := h.injective
  fresh i := by
    rw [size_push, size_push, Nat.add_assoc, Nat.add_assoc]
    exact h.fresh (1 + i)
  node n := by
    have hn : (g n = t.size) = (n = u.size) :=
      propext (h.fresh_size ▸ h.injective.eq_iff)
    rw [node_push, node_push, h.node]
    simp only [hn]
    split <;> rfl
  root := h.root
  revision := h.revision

theorem allocate (kind : NodeKind) (span : Span) (ty : Option TypeDesc) (slots : List (Option NodeId))
    (list : List NodeId) : Renamed g k (u.allocate kind span ty slots list)
      (t.allocate kind span ty (slots.map (Option.map g)) (list.map g)) := by
  let d : Node := ⟨kind, span, ty, slots, list, none, true, none⟩
  have hall : Renamed g k
      (d.children.foldl (fun v c => v.update c fun e => { e with parent := some u.fresh }) (u.push d))
      ((d.children.map g).foldl (fun v c => v.update c fun e => { e with parent := some (g u.fresh) })
        (t.push (d.rename g))) :=
    (h.push d).foldl (fun h n => h.adopt u.fresh n) d.children
  rw [← Node.children_rename, show g u.fresh = t.fresh from h.fresh_size] at hall
  exact hall

end

mutual

theorem plant {u t : SyntaxTree} (h : Renamed g k u t) (d : Doc) :
    (t.plant d).1 = g (u.plant d).1 ∧ Renamed g k (u.plant d).2 (t.plant d).2 := by
  cases d with
  | node kind span ty slots list =>
    obtain ⟨hms, hs⟩ := plantSlots h slots
    obtain ⟨hns, hl⟩ := plantList hs list
    simp only [SyntaxTree.plant]
    rw [hms, hns]
    exact ⟨hl.fresh_size.symm, hl.allocate kind span ty _ _⟩

theorem plantSlots {u t : SyntaxTree} (h : Renamed g k u t) (slots : List (Option Doc)) :
    (t.plantSlots slots).1 = (u.plantSlots slots).1.map (Option.map g) ∧
      Renamed g k (u.plantSlots slots).2 (t.plantSlots slots).2 := by
  match slots with
  | [] => exact ⟨rfl, h⟩
  | none :: slots =>
    obtain ⟨hms, hs⟩ := plantSlots h slots
    exact ⟨congrArg (none :: ·) hms, hs⟩
  | some d :: slots =>
    obtain ⟨hm, hd⟩ := plant h d
    obtain ⟨hms, hs⟩ := plantSlots hd slots
    refine ⟨?_, hs⟩
    simp only [SyntaxTree.plantSlots, List.map_cons, Option.map_some, hm, hms]

theorem plantList {u t : SyntaxTree} (h : Renamed g k u t) (list : List Doc) :
    (t.plantList list).1 = (u.plantList list).1.map g ∧
      Renamed g k (u.plantList list).2 (t.plantList list).2 := by
  match list with
  | [] => exact ⟨rfl, h⟩
  | d :: list =>
    obtain ⟨hm, hd⟩ := plant h d
    obtain ⟨hms, hs⟩ := plantList hd list
    refine ⟨?_, hs⟩
    simp only [SyntaxTree.plantList, List.map_cons, hm, hms]

end

variable (h : Renamed g k u t)
include h

theorem clone (hu : u.Linked) (ht : t.Linked) (n : NodeId) :
    (t.clone (g n)).1 = g (u.clone n).1 ∧ Renamed g k (u.clone n).2 (t.clone (g n)).2 := by
  rw [hu.clone_eq_plant, ht.clone_eq_plant, h.doc hu]
  exact h.plant (u.doc n)

section Create

variable {kind : NodeKind} {i : Nat} {seen cs : List NodeId}

theorem checkChild_new {c : NodeId} (hc : u.isDetached c = true) (hs : c ∉ seen) :
    u.checkChild seen c = .ok (c :: seen) ∧ t.checkChild (seen.map g) (g c) = .ok ((c :: seen).map g) := by
  have hs' : g c ∉ seen.map g := by rwa [List.mem_map_of_injective h.injective]
  exact ⟨checkChild_eq_ok.mpr ⟨⟨hc, hs⟩, rfl⟩, checkChild_eq_ok.mpr ⟨⟨(h.isDetached c).trans hc, hs'⟩, rfl⟩⟩

theorem checkClass (pos : Position) (admits : SlotClass) (c : NodeId) :
    t.checkClass kind pos admits (g c) = u.checkClass kind pos admits c := by
  rw [SyntaxTree.checkClass, SyntaxTree.checkClass, h.kind]

/-- As long as the children are detached and new, no error names a node. -/
theorem checkSlots {slots : List (Option NodeId)} {places : List SlotSpec}
    (hs : u.Unseen seen (slots.filterMap fun o => o)) :
    t.checkSlots kind i (seen.map g) (slots.map (Option.map g)) places =
      (u.checkSlots kind i seen slots places).map (List.map g) := by
  induction slots generalizing i seen places with
  | nil => cases places <;> rfl
  | cons o slots ih =>
    cases places with
    | nil => cases o <;> rfl
    | cons place places =>
      cases o with
      | none =>
        simp only [List.map_cons, Option.map_none, SyntaxTree.checkSlots]
        split
        · exact ih hs
        · rfl
      | some c =>
        obtain ⟨⟨hc, hn⟩, hrest⟩ := unseen_cons.mp hs
        obtain ⟨hu, ht⟩ := h.checkChild_new hc hn
        simp only [List.map_cons, Option.map_some, SyntaxTree.checkSlots, hu, ht, h.checkClass]
        cases u.checkClass kind (.slot i) place.admits c with
        | error e => rfl
        | ok x => exact ih hrest

theorem checkItems {admits : SlotClass} (hs : u.Unseen seen cs) :
    t.checkItems kind admits i (seen.map g) (cs.map g) = u.checkItems kind admits i seen cs := by
  induction cs generalizing i seen with
  | nil => rfl
  | cons c cs ih =>
    obtain ⟨⟨hc, hn⟩, hrest⟩ := unseen_cons.mp hs
    obtain ⟨hu, ht⟩ := h.checkChild_new hc hn
    simp only [List.map_cons, SyntaxTree.checkItems, hu, ht, h.checkClass]
    cases u.checkClass kind (.list i) admits c with
    | error e => rfl
    | ok x => exact ih hrest

theorem checkList (hs : u.Unseen seen cs) :
    t.checkList kind (seen.map g) (cs.map g) = u.checkList kind seen cs := by
  rw [SyntaxTree.checkList, SyntaxTree.checkList]
  cases kind.layout.list with
  | none => simp only [List.isEmpty_map]
  | some spec => simp only [List.length_map, h.checkItems hs]

/-- Over detached children, each used once, the node is made in both trees, or refused for the same reason. -/
theorem create? {s : NodeSpec} (hs : u.Loose (s.slots.filterMap (fun o => o) ++ s.list)) :
    (∃ m u' t', u.create? s = .ok (m, u') ∧ t.create? (s.rename g) = .ok (g m, t') ∧
      Renamed g k u' t') ∨
    ∃ e, u.create? s = .error e ∧ t.create? (s.rename g) = .error e := by
  have hpad : padSlots s.kind.layout.slots.length (s.slots.map (Option.map g)) =
      (padSlots s.kind.layout.slots.length s.slots).map (Option.map g) := by
    rw [padSlots, padSlots, List.map_append, List.map_replicate, List.length_map]
    rfl
  rw [loose_iff, unseen_append, ← filterMap_padSlots s.kind.layout.slots.length] at hs
  by_cases hl : s.kind.layout.slots.length < s.slots.length
  · refine .inr ⟨_, if_pos hl, ?_⟩
    simp only [SyntaxTree.create?, NodeSpec.rename, List.length_map, if_pos hl]
    rfl
  · have hlen : (padSlots s.kind.layout.slots.length s.slots).length = s.kind.layout.slots.length := by
      rw [padSlots, List.length_append, List.length_replicate]
      omega
    have hslots : t.checkSlots s.kind 0 [] ((padSlots s.kind.layout.slots.length s.slots).map (Option.map g))
        s.kind.layout.slots = (u.checkSlots s.kind 0 [] (padSlots s.kind.layout.slots.length s.slots)
          s.kind.layout.slots).map (List.map g) := h.checkSlots hs.1
    simp only [SyntaxTree.create?, NodeSpec.rename, List.length_map, if_neg hl, hpad, bind, Except.bind, pure,
      Except.pure]
    rw [hslots]
    cases hc : u.checkSlots s.kind 0 [] (padSlots s.kind.layout.slots.length s.slots)
        s.kind.layout.slots with
    | error e => exact .inr ⟨e, rfl, rfl⟩
    | ok seen =>
      obtain rfl := ((checkSlots_eq_ok hlen).mp hc).2.2
      simp only [Except.map, h.checkList hs.2]
      cases u.checkList s.kind _ s.list with
      | error e => exact .inr ⟨e, rfl, rfl⟩
      | ok x =>
        refine .inl ⟨_, _, _, rfl, ?_, h.allocate s.kind s.span s.ty _ s.list⟩
        rw [show g u.fresh = t.fresh from h.fresh_size]

end Create

end Renamed

end SyntaxTree

end TreeTidy
