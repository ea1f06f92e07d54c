import TreeTidy.Print.Source
import TreeTidy.Proofs.Document.Reread
/-!
The text of a document from the texts of its parts. Neither spans nor stated types have a part in it.
-/
namespace TreeTidy.Doc

variable {kind : NodeKind} {span : Span} {ty : Option TypeDesc} {slots : List (Option Doc)}
  {list : List Doc}

theorem printAt_node (depth : Nat) : (node kind span ty slots list).printAt depth =
    Print.node depth (Print.isBare list) kind (slots.map (Option.map (printAt depth)))
      (list.map (printAt (Print.itemDepth kind depth))) := by
  have hs : ∀ slots, printSlots depth slots = slots.map (Option.map (printAt depth)) := by
    intro slots
    induction slots with
    | nil => rw [printSlots, List.map_nil]
    | cons o slots ih => cases o <;> rw [printSlots, ih] <;> rfl
  have hl : ∀ depth list, printList depth list = list.map (printAt depth) := by
    intro depth list
    induction list with
    | nil => rw [printList, List.map_nil]
    | cons d list ih => rw [printList, ih, List.map_cons]
  rw [printAt, hs, hl]

theorem isBare_normal (list : List Doc) : Print.isBare (list.map normal) = Print.isBare list := by
  match list with
  | [] => rfl
  | [.node kind span ty slots list] =>
    rw [List.map_singleton, normal_node]
    cases slots with
    | nil => rfl
    | cons o slots => cases o <;> rfl
  | _ :: _ :: _ => rfl

theorem printAt_normal (d : Doc) : ∀ depth, d.normal.printAt depth = d.printAt depth := by
  induction d using induction with
  | node kind span ty slots list hs hl =>
    intro depth
    rw [normal_node, printAt_node, printAt_node, isBare_normal, List.map_map, List.map_map]
    congr 1
    · refine List.map_congr_left fun o ho => ?_
      cases o with
      | none => rfl
      | some c => exact congrArg some (hs c ho depth)
    · exact List.map_congr_left fun c hc => hl c hc _

theorem print_normal (d : Doc) : d.normal.print = d.print := d.printAt_normal 0

end TreeTidy.Doc
