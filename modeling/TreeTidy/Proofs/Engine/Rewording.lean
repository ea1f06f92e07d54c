import TreeTidy.Proofs.Engine.Registration
/-!
What makes no difference to a schedule: the order in which rules and bundles are registered, which of its
names a rule is called by, and the order and repetition of names in lists.
-/
namespace TreeTidy

/-- The names are equal or both of one rule. -/
def SameName (rules : List Rule) (x y : String) : Prop :=
  x = y ∨ ∃ r ∈ rules, r.info.answersTo x = true ∧ r.info.answersTo y = true

instance (rules : List Rule) (x y : String) : Decidable (SameName rules x y) :=
  inferInstanceAs (Decidable (_ ∨ _))

/-- The lists name the same, in whatever order, how often and by which of its names. -/
structure SameEntries (rules : List Rule) (xs ys : List String) : Prop where
  right : ∀ x ∈ xs, ∃ y ∈ ys, SameName rules x y
  left : ∀ y ∈ ys, ∃ x ∈ xs, SameName rules x y

/-- The rules differ in the wording of their constraints at most. -/
structure Rule.Rewords (rules : List Rule) (q r : Rule) : Prop where
  sameWork : q.SameWork r
  after : SameEntries rules q.info.after r.info.after
  before : SameEntries rules q.info.before r.info.before

/-- The bundles list the same members. -/
structure BundleSpec.Rewords (rules : List Rule) (b b' : BundleSpec) : Prop where
  id : b.id = b'.id
  description : b.description = b'.description
  members : ∃ names names', b.members = .listed names ∧ b'.members = .listed names' ∧
    SameEntries rules names names'

/-- The same rules and bundles, in another order and in other words. -/
structure Reregisters (rules : List Rule) (bundles : List BundleSpec) (rules' : List Rule)
    (bundles' : List BundleSpec) : Prop where
  ofRules : ∃ qs, qs.Perm rules ∧ List.Forall₂ (Rule.Rewords rules) qs rules'
  ofBundles : ∃ bs, bs.Perm bundles ∧ List.Forall₂ (BundleSpec.Rewords rules) bs bundles'

/-- The same selection in other words. -/
structure Selection.Rewords (rules : List Rule) (s s' : Selection) : Prop where
  taken : SameEntries rules s.taken s'.taken
  leftOut : SameEntries rules s.leftOut s'.leftOut
  tags : ∀ tag, tag ∈ s.tags ↔ tag ∈ s'.tags
  drafts : s.drafts = s'.drafts
  level : s.level = s'.level

section Lists

variable {α β : Type} {R : α → β → Prop} {as : List α} {bs : List β}

theorem exists_of_forall₂ (h : List.Forall₂ R as bs) :
    (∀ a ∈ as, ∃ b ∈ bs, R a b) ∧ ∀ b ∈ bs, ∃ a ∈ as, R a b := by
  induction h with
  | nil => exact ⟨nofun, nofun⟩
  | @cons a b as bs hab _ ih =>
    exact ⟨List.forall_mem_cons.mpr
        ⟨⟨b, .head _, hab⟩, fun a ha => (ih.1 a ha).imp fun _ hb => ⟨.tail _ hb.1, hb.2⟩⟩,
      List.forall_mem_cons.mpr
        ⟨⟨a, .head _, hab⟩, fun b hb => (ih.2 b hb).imp fun _ ha => ⟨.tail _ ha.1, ha.2⟩⟩⟩

/-- Lists in the order of their keys match if each member has its match in the other. -/
theorem forall₂_of_increasing {f : α → String} {g : β → String}
    (has : as.Pairwise fun a b => f a < f b) (hbs : bs.Pairwise fun a b => g a < g b)
    (hkey : ∀ a b, R a b → f a = g b) (hright : ∀ a ∈ as, ∃ b ∈ bs, R a b)
    (hleft : ∀ b ∈ bs, ∃ a ∈ as, R a b) : List.Forall₂ R as bs := by
  have hkeys : as.map f = bs.map g := by
    refine (List.pairwise_map.mpr has).eq_of_mem_iff (List.pairwise_map.mpr hbs) fun k => ?_
    simp only [List.mem_map]
    constructor
    · rintro ⟨a, ha, rfl⟩
      obtain ⟨b, hb, hab⟩ := hright a ha
      exact ⟨b, hb, (hkey a b hab).symm⟩
    · rintro ⟨b, hb, rfl⟩
      obtain ⟨a, ha, hab⟩ := hleft b hb
      exact ⟨a, ha, hkey a b hab⟩
  have hinj := List.inj_on_of_nodup_map ((List.pairwise_map.mpr hbs).imp fun {_ _} h => ne_of_lt h)
  rw [← List.forall₂_eq_eq_eq, List.forall₂_map_left_iff, List.forall₂_map_right_iff,
    List.forall₂_iff_zip] at hkeys
  refine List.forall₂_iff_zip.mpr ⟨hkeys.1, fun {a b} hzip => ?_⟩
  obtain ⟨ha, hb⟩ := List.of_mem_zip hzip
  obtain ⟨b', hb', hab⟩ := hright a ha
  exact hinj hb' hb ((hkey a b' hab).symm.trans (hkeys.2 hzip)) ▸ hab

theorem find?_of_forall₂ {p : α → Bool} {q : β → Bool} (h : List.Forall₂ R as bs)
    (hpq : ∀ a b, R a b → p a = q b) : Option.Rel R (as.find? p) (bs.find? q) := by
  have hfilter : List.Forall₂ R (as.filter p) (bs.filter q) :=
    List.rel_filter (fun a b hab => by simp only [hpq a b hab]) h
  rw [← List.head?_filter, ← List.head?_filter]
  generalize as.filter p = fs, bs.filter q = gs at hfilter ⊢
  cases hfilter with
  | nil => exact .none
  | cons hab _ => exact .some hab

end Lists

section Rules

variable {rules rules' : List Rule} {bundles bundles' : List BundleSpec} {q r s : Rule}
  {x y name id : String} {xs ys : List String}

theorem Rule.SameWork.symm (h : q.SameWork r) : r.SameWork q := by
  obtain ⟨after, before, rfl⟩ := h
  exact ⟨q.info.after, q.info.before, rfl⟩

theorem Rule.SameWork.trans (h : q.SameWork r) (h' : r.SameWork s) : q.SameWork s := by
  obtain ⟨after, before, rfl⟩ := h
  obtain ⟨after', before', rfl⟩ := h'
  exact ⟨after', before', rfl⟩

theorem Rule.SameWork.id_eq (h : q.SameWork r) : q.id = r.id := by
  obtain ⟨after, before, rfl⟩ := h
  rfl

theorem Rule.SameWork.answersTo_eq (h : q.SameWork r) : q.info.answersTo = r.info.answersTo := by
  obtain ⟨after, before, rfl⟩ := h
  rfl

theorem SameName.symm (h : SameName rules x y) : SameName rules y x := by
  rcases h with rfl | ⟨r, hr, hx, hy⟩
  · exact .inl rfl
  · exact .inr ⟨r, hr, hy, hx⟩

theorem SameName.known (h : SameName rules x y) (hx : Known rules x) : Known rules y := by
  rcases h with rfl | ⟨r, hr, -, hy⟩
  · exact hx
  · exact ⟨r, hr, hy⟩

theorem SameName.denotes (hu : Unambiguous rules) (h : SameName rules x y)
    (hx : Denotes rules x id) : Denotes rules y id := by
  rcases h with rfl | ⟨r, hr, hrx, hry⟩
  · exact hx
  · obtain ⟨q, hq, hqx, rfl⟩ := hx
    obtain rfl := hu q hq r hr x hqx hrx
    exact ⟨q, hq, hry, rfl⟩

/-- Lists of the same entries denote the same rules. -/
theorem SameEntries.denotes_iff (hu : Unambiguous rules) (h : SameEntries rules xs ys) :
    (∃ x ∈ xs, Denotes rules x id) ↔ ∃ y ∈ ys, Denotes rules y id := by
  constructor
  · rintro ⟨x, hx, hd⟩
    obtain ⟨y, hy, hxy⟩ := h.right x hx
    exact ⟨y, hy, hxy.denotes hu hd⟩
  · rintro ⟨y, hy, hd⟩
    obtain ⟨x, hx, hxy⟩ := h.left y hy
    exact ⟨x, hx, hxy.symm.denotes hu hd⟩

theorem SameEntries.known (h : SameEntries rules xs ys) (hxs : ∀ x ∈ xs, Known rules x) :
    ∀ y ∈ ys, Known rules y := by
  intro y hy
  obtain ⟨x, hx, hxy⟩ := h.left y hy
  exact hxy.known (hxs x hx)

namespace Reregisters

variable (h : Reregisters rules bundles rules' bundles')
include h

theorem exists_rule (hq : q ∈ rules) : ∃ r ∈ rules', q.Rewords rules r := by
  obtain ⟨qs, hperm, hall⟩ := h.ofRules
  exact (exists_of_forall₂ hall).1 q (hperm.mem_iff.mpr hq)

theorem of_rule (hr : r ∈ rules') : ∃ q ∈ rules, q.Rewords rules r := by
  obtain ⟨qs, hperm, hall⟩ := h.ofRules
  obtain ⟨q, hq, hqr⟩ := (exists_of_forall₂ hall).2 r hr
  exact ⟨q, hperm.mem_iff.mp hq, hqr⟩

theorem exists_bundle {b : BundleSpec} (hb : b ∈ bundles) : ∃ b' ∈ bundles', b.Rewords rules b' := by
  obtain ⟨bs, hperm, hall⟩ := h.ofBundles
  exact (exists_of_forall₂ hall).1 b (hperm.mem_iff.mpr hb)

theorem of_bundle {b' : BundleSpec} (hb : b' ∈ bundles') : ∃ b ∈ bundles, b.Rewords rules b' := by
  obtain ⟨bs, hperm, hall⟩ := h.ofBundles
  obtain ⟨b, hb, hbb⟩ := (exists_of_forall₂ hall).2 b' hb
  exact ⟨b, hperm.mem_iff.mp hb, hbb⟩

theorem known_iff : Known rules' name ↔ Known rules name := by
  constructor
  · rintro ⟨r, hr, hn⟩
    obtain ⟨q, hq, hqr⟩ := h.of_rule hr
    exact ⟨q, hq, hqr.sameWork.answersTo_eq ▸ hn⟩
  · rintro ⟨q, hq, hn⟩
    obtain ⟨r, hr, hqr⟩ := h.exists_rule hq
    exact ⟨r, hr, hqr.sameWork.answersTo_eq ▸ hn⟩

theorem denotes_iff : Denotes rules' name id ↔ Denotes rules name id := by
  constructor
  · rintro ⟨r, hr, hn, hid⟩
    obtain ⟨q, hq, hqr⟩ := h.of_rule hr
    exact ⟨q, hq, hqr.sameWork.answersTo_eq ▸ hn, hqr.sameWork.id_eq.trans hid⟩
  · rintro ⟨q, hq, hn, hid⟩
    obtain ⟨r, hr, hqr⟩ := h.exists_rule hq
    exact ⟨r, hr, hqr.sameWork.answersTo_eq ▸ hn, hqr.sameWork.id_eq.symm.trans hid⟩

theorem namesOf_perm : (namesOf rules bundles).Perm (namesOf rules' bundles') := by
  obtain ⟨qs, hqs, hrules⟩ := h.ofRules
  obtain ⟨bs, hbs, hbundles⟩ := h.ofBundles
  obtain ⟨hids, haliases⟩ := names_of_sameWork (hrules.imp fun _ _ hqr => hqr.sameWork)
  have hbids : bs.map BundleSpec.id = bundles'.map BundleSpec.id :=
    map_eq_of_forall₂ (hbundles.imp fun _ _ hb => hb.id)
  rw [namesOf, namesOf, hids, haliases, ← hbids]
  exact ((hqs.symm.map _).append (hqs.symm.flatMap_right _)).append (hbs.symm.map _)

/-- What can be registered can be registered in other words. -/
theorem registrable (hreg : Registrable rules bundles) : Registrable rules' bundles' where
  names := h.namesOf_perm.nodup_iff.mp hreg.names
  targets := by
    intro r hr
    obtain ⟨q, hq, hqr⟩ := h.of_rule hr
    have htargets := List.forall_mem_append.mp (hreg.targets q hq)
    exact List.forall_mem_append.mpr
      ⟨fun t ht => h.known_iff.mpr (hqr.after.known htargets.1 t ht),
        fun t ht => h.known_iff.mpr (hqr.before.known htargets.2 t ht)⟩
  members := by
    intro b' hb' ns hns name hname
    obtain ⟨b, hb, -, -, names, names', hnames, hnames', hsame⟩ := h.of_bundle hb'
    obtain rfl : names' = ns := by
      rw [hns] at hnames'
      cases hnames'
      rfl
    exact h.known_iff.mpr (hsame.known (hreg.members b hb names hnames) name hname)

end Reregisters

end Rules

/-- The rules have the same constraints, in whatever order. -/
structure Rule.Alike (q r : Rule) : Prop where
  sameWork : q.SameWork r
  after : ∀ id, id ∈ q.info.after ↔ id ∈ r.info.after
  before : ∀ id, id ∈ q.info.before ↔ id ∈ r.info.before

/-- The catalogs differ in the order of constraints at most. -/
structure Catalog.Alike (c c' : Catalog) : Prop where
  ofRules : List.Forall₂ Rule.Alike c.rules c'.rules
  ofBundles : c.bundles = c'.bundles

section Catalogs

variable {rules rules' : List Rule} {bundles bundles' : List BundleSpec} {c c' : Catalog}

theorem Catalog.Holds.exists_rule (h : c.Holds rules bundles) {q : Rule} (hq : q ∈ rules) :
    ∃ r ∈ c.rules, Resolves rules q r := by
  obtain ⟨qs, hperm, hall⟩ := h.ofRules
  exact (exists_of_forall₂ hall).1 q (hperm.mem_iff.mpr hq)

theorem Catalog.Holds.of_rule (h : c.Holds rules bundles) {r : Rule} (hr : r ∈ c.rules) :
    ∃ q ∈ rules, Resolves rules q r := by
  obtain ⟨qs, hperm, hall⟩ := h.ofRules
  obtain ⟨q, hq, hqr⟩ := (exists_of_forall₂ hall).2 r hr
  exact ⟨q, hperm.mem_iff.mp hq, hqr⟩

theorem Catalog.Holds.exists_bundle (h : c.Holds rules bundles) {b : BundleSpec} (hb : b ∈ bundles) :
    ∃ d ∈ c.bundles, b.Resolves rules d := by
  obtain ⟨ds, hperm, hall⟩ := h.ofBundles
  obtain ⟨d, hd, hbd⟩ := (exists_of_forall₂ hall).1 b hb
  exact ⟨d, hperm.mem_iff.mp hd, hbd⟩

theorem Catalog.Holds.of_bundle (h : c.Holds rules bundles) {d : Bundle} (hd : d ∈ c.bundles) :
    ∃ b ∈ bundles, b.Resolves rules d := by
  obtain ⟨ds, hperm, hall⟩ := h.ofBundles
  exact (exists_of_forall₂ hall).2 d (hperm.mem_iff.mpr hd)

/-- What one rule becomes in two catalogs. -/
theorem Resolves.alike (hu : Unambiguous rules) (h : Reregisters rules bundles rules' bundles')
    {q q' r r' : Rule} (hq : q.Rewords rules q') (hr : Resolves rules q r)
    (hr' : Resolves rules' q' r') : r.Alike r' where
  sameWork := (hr.sameWork.symm.trans hq.sameWork).trans hr'.sameWork
  after id := by
    rw [hr.after, hr'.after, hq.after.denotes_iff hu]
    simp only [h.denotes_iff]
  before id := by
    rw [hr.before, hr'.before, hq.before.denotes_iff hu]
    simp only [h.denotes_iff]

/-- What one bundle becomes in two catalogs. -/
theorem BundleSpec.Resolves.eq (hu : Unambiguous rules) (h : Reregisters rules bundles rules' bundles')
    {b b' : BundleSpec} {d d' : Bundle} (hb : b.Rewords rules b') (hd : b.Resolves rules d)
    (hd' : b'.Resolves rules' d') : d = d' := by
  obtain ⟨hid, hdescription, names, names', hnames, hnames', hsame⟩ := hb
  have hmembers : d.members = d'.members := by
    refine hd.increasing.eq_of_mem_iff hd'.increasing fun id => ?_
    rw [hd.members names hnames, hd'.members names' hnames', hsame.denotes_iff hu]
    simp only [h.denotes_iff]
  cases d
  cases d'
  exact congr (congr (congrArg Bundle.mk (hd.id.trans (hid.trans hd'.id.symm)))
    (hd.description.trans (hdescription.trans hd'.description.symm))) hmembers

/-- Catalogs of the same rules and bundles are alike. -/
theorem Reregisters.alike (h : Reregisters rules bundles rules' bundles')
    (hreg : Registrable rules bundles) (hc : c.Holds rules bundles) (hc' : c'.Holds rules' bundles') :
    c.Alike c' := by
  have hu := Catalog.unambiguous_of_nodup hreg.names
  constructor
  · refine forall₂_of_increasing hc.wellNamed.increasing hc'.wellNamed.increasing
      (fun _ _ ha => ha.sameWork.id_eq) ?_ ?_
    · intro r hr
      obtain ⟨q, hq, hqr⟩ := hc.of_rule hr
      obtain ⟨q', hq', hqq⟩ := h.exists_rule hq
      obtain ⟨r', hr', hqr'⟩ := hc'.exists_rule hq'
      exact ⟨r', hr', hqr.alike hu h hqq hqr'⟩
    · intro r' hr'
      obtain ⟨q', hq', hqr'⟩ := hc'.of_rule hr'
      obtain ⟨q, hq, hqq⟩ := h.of_rule hq'
      obtain ⟨r, hr, hqr⟩ := hc.exists_rule hq
      exact ⟨r, hr, hqr.alike hu h hqq hqr'⟩
  · rw [← List.forall₂_eq_eq_eq]
    refine forall₂_of_increasing hc.increasing hc'.increasing (fun _ _ he => congrArg Bundle.id he) ?_ ?_
    · intro d hd
      obtain ⟨b, hb, hbd⟩ := hc.of_bundle hd
      obtain ⟨b', hb', hbb⟩ := h.exists_bundle hb
      obtain ⟨d', hd', hbd'⟩ := hc'.exists_bundle hb'
      exact ⟨d', hd', hbd.eq hu h hbb hbd'⟩
    · intro d' hd'
      obtain ⟨b', hb', hbd'⟩ := hc'.of_bundle hd'
      obtain ⟨b, hb, hbb⟩ := h.of_bundle hb'
      obtain ⟨d, hd, hbd⟩ := hc.exists_bundle hb
      exact ⟨d, hd, hbd.eq hu h hbb hbd'⟩

end Catalogs

namespace Schedule

variable {qs rs : List Rule} {q r : Rule} {a b : String}

theorem map_id_of_alike (h : List.Forall₂ Rule.Alike qs rs) : qs.map Rule.id = rs.map Rule.id :=
  map_eq_of_forall₂ (h.imp fun _ _ ha => ha.sameWork.id_eq)

theorem mem_stated_of_alike {active : List String} {e : Precedence} (h : q.Alike r) :
    e ∈ stated active q ↔ e ∈ stated active r := by
  simp only [stated, List.mem_append, List.mem_map, List.mem_filter, h.after, h.before,
    h.sameWork.id_eq]

instance : Std.Asymm Precedence.lt where
  asymm e f hef hfe := by
    rcases hef with hef | ⟨he, hef⟩ <;> rcases hfe with hfe | ⟨hf, hfe⟩
    · exact lt_asymm hef hfe
    · exact lt_irrefl _ (hf ▸ hef)
    · exact lt_irrefl _ (he ▸ hfe)
    · exact lt_asymm hef hfe

theorem edges_eq_of_alike (h : List.Forall₂ Rule.Alike qs rs) : edges qs = edges rs := by
  refine (edges_increasing qs).eq_of_mem_iff (edges_increasing rs) fun e => ?_
  obtain ⟨hright, hleft⟩ := exists_of_forall₂ h
  simp only [edges, List.mem_mergeSort, List.mem_eraseDups, List.mem_flatMap, map_id_of_alike h]
  constructor
  · rintro ⟨q, hq, he⟩
    obtain ⟨r, hr, ha⟩ := hright q hq
    exact ⟨r, hr, (mem_stated_of_alike ha).mp he⟩
  · rintro ⟨r, hr, he⟩
    obtain ⟨q, hq, ha⟩ := hleft r hr
    exact ⟨q, hq, (mem_stated_of_alike ha).mpr he⟩

theorem declarers_eq_of_alike (h : List.Forall₂ Rule.Alike qs rs) (e : Precedence) :
    declarers qs e = declarers rs e := by
  rw [declarers, declarers, map_id_of_alike h]
  refine map_id_of_alike (List.rel_filter (fun q r ha => ?_) h)
  simp only [List.contains_iff_mem, mem_stated_of_alike ha]

/-- Rules that are alike have the same order and the same lints. -/
theorem ofRules_of_alike (h : List.Forall₂ Rule.Alike qs rs) {s : Schedule} (hs : ofRules qs = .ok s) :
    ∃ s', ofRules rs = .ok s' ∧ s'.ids = s.ids ∧ s'.lints = s.lints := by
  have hids := map_id_of_alike h
  have hfind : ∀ id, (qs.find? (·.id == id)).map Rule.id = (rs.find? (·.id == id)).map Rule.id := by
    intro id
    have hrel := find?_of_forall₂ (p := (·.id == id)) (q := (·.id == id)) h
      fun q r ha => by rw [ha.sameWork.id_eq]
    generalize qs.find? (·.id == id) = q?, rs.find? (·.id == id) = r? at hrel ⊢
    cases hrel with
    | none => rfl
    | some ha => exact congrArg some ha.sameWork.id_eq
  simp only [ofRules, edges_eq_of_alike h, hids] at hs
  simp only [ofRules]
  split at hs
  · cases hs
  next hlen =>
    cases hs
    rw [if_neg hlen]
    refine ⟨_, rfl, ?_, ?_⟩
    · simp only [ids, List.map_filterMap, hfind]
    · simp only [lintsOf, edges_eq_of_alike h, declarers_eq_of_alike h]

end Schedule

namespace Catalog.Alike

variable {c c' : Catalog} (h : c.Alike c') {name : String} {names names' ids ids' : List String}
include h

theorem get?_rel (name : String) : Option.Rel Rule.Alike (c.get? name) (c'.get? name) :=
  find?_of_forall₂ h.ofRules fun q r ha => by rw [ha.sameWork.answersTo_eq]

theorem canonical?_eq (name : String) : c.canonical? name = c'.canonical? name := by
  have hrel := h.get?_rel name
  rw [canonical?, canonical?]
  generalize c.get? name = q?, c'.get? name = r? at hrel ⊢
  cases hrel with
  | none => rfl
  | some ha => exact congrArg some ha.sameWork.id_eq

theorem expand_eq (name : String) : Selection.expand c name = Selection.expand c' name := by
  rw [Selection.expand, Selection.expand, h.canonical?_eq, bundle?, bundle?, h.ofBundles]

theorem expandAll_eq (names : List String) :
    Selection.expandAll c names = Selection.expandAll c' names := by
  simp only [Selection.expandAll, funext h.expand_eq]

theorem named_alike (active : List String) :
    List.Forall₂ Rule.Alike (c.named active) (c'.named active) :=
  List.rel_filter (fun q r ha => by simp only [ha.sameWork.answersTo_eq]) h.ofRules

end Catalog.Alike

section Selections

variable {rules : List Rule} {bundles : List BundleSpec} {c c' : Catalog} {x y id : String}
  {xs ys ids active : List String} {s s' : Selection}

namespace Catalog

/-- Names of one rule stand for the same in a catalog. -/
theorem Holds.expand_eq (hc : c.Holds rules bundles) (h : SameName rules x y) :
    Selection.expand c x = Selection.expand c y := by
  rcases h with rfl | ⟨q, hq, hx, hy⟩
  · rfl
  · obtain ⟨r, hr, hqr⟩ := hc.exists_rule hq
    rw [hqr.sameWork.answersTo_eq] at hx hy
    have hgx := hc.wellNamed.get?_eq_some.mpr ⟨hr, hx⟩
    have hgy := hc.wellNamed.get?_eq_some.mpr ⟨hr, hy⟩
    simp only [Selection.expand, canonical?, hgx, hgy, Option.map_some]

theorem expandAll_eq_ok : Selection.expandAll c xs = .ok ids ↔
    ∃ idss, xs.mapM (Selection.expand c) = .ok idss ∧ idss.flatten = ids := by
  simp only [Selection.expandAll, bind, except_bind_eq_ok, pure, Except.pure, Except.ok.injEq]

theorem mem_expandAll (h : Selection.expandAll c xs = .ok ids) :
    id ∈ ids ↔ ∃ x ∈ xs, ∃ l, Selection.expand c x = .ok l ∧ id ∈ l := by
  obtain ⟨idss, hidss, rfl⟩ := expandAll_eq_ok.mp h
  rw [List.mem_flatten]
  constructor
  · rintro ⟨l, hl, hid⟩
    obtain ⟨x, hx, hxl⟩ := exists_of_mapM_eq_ok hidss l hl
    exact ⟨x, hx, l, hxl, hid⟩
  · rintro ⟨x, hx, l, hxl, hid⟩
    obtain ⟨l', hl', hxl'⟩ := ok_of_mapM_eq_ok hidss x hx
    rw [hxl] at hxl'
    cases hxl'
    exact ⟨l, hl', hid⟩

/-- Lists of the same entries stand for the same rules of a catalog. -/
theorem Holds.expandAll_rewords (hc : c.Holds rules bundles) (h : SameEntries rules xs ys)
    (hxs : Selection.expandAll c xs = .ok ids) :
    ∃ ids', Selection.expandAll c ys = .ok ids' ∧ ∀ id, id ∈ ids ↔ id ∈ ids' := by
  obtain ⟨idss, hidss, -⟩ := expandAll_eq_ok.mp hxs
  have hall : ∀ y ∈ ys, ∃ l, Selection.expand c y = .ok l := by
    intro y hy
    obtain ⟨x, hx, hxy⟩ := h.left y hy
    obtain ⟨l, -, hl⟩ := ok_of_mapM_eq_ok hidss x hx
    exact ⟨l, hc.expand_eq hxy ▸ hl⟩
  obtain ⟨idss', hidss'⟩ := exists_mapM_eq_ok.mpr hall
  have hys := expandAll_eq_ok.mpr ⟨idss', hidss', rfl⟩
  refine ⟨_, hys, fun id => ?_⟩
  rw [mem_expandAll hxs, mem_expandAll hys]
  constructor
  · rintro ⟨x, hx, l, hl, hid⟩
    obtain ⟨y, hy, hxy⟩ := h.right x hx
    exact ⟨y, hy, l, hc.expand_eq hxy ▸ hl, hid⟩
  · rintro ⟨y, hy, l, hl, hid⟩
    obtain ⟨x, hx, hxy⟩ := h.left y hy
    exact ⟨x, hx, l, (hc.expand_eq hxy).trans hl, hid⟩

end Catalog

theorem SameEntries.isEmpty_eq (h : SameEntries rules xs ys) : xs.isEmpty = ys.isEmpty := by
  cases xs with
  | nil =>
    cases ys with
    | nil => rfl
    | cons y ys =>
      obtain ⟨x, hx, -⟩ := h.left y (.head _)
      cases hx
  | cons x xs =>
    obtain ⟨y, hy, -⟩ := h.right x (.head _)
    cases ys with
    | nil => cases hy
    | cons y ys => rfl

theorem contains_congr (h : ∀ x, x ∈ xs ↔ x ∈ ys) (x : String) : xs.contains x = ys.contains x := by
  rw [Bool.eq_iff_iff, List.contains_iff_mem, List.contains_iff_mem, h]

/-- A selection in other words admits the same rules. -/
theorem Selection.Rewords.admits_eq (h : s.Rewords rules s') (hids : ∀ id, id ∈ xs ↔ id ∈ ys)
    {q r : Rule} (ha : q.Alike r) : s.admits xs q.info = s'.admits ys r.info := by
  obtain ⟨after, before, rfl⟩ := ha.sameWork
  have hany : s.tags.any q.info.hasTag = s'.tags.any q.info.hasTag := by
    rw [Bool.eq_iff_iff, List.any_eq_true, List.any_eq_true]
    simp only [h.tags]
  have hempty : s.tags.isEmpty = s'.tags.isEmpty := by
    rw [Bool.eq_iff_iff, List.isEmpty_iff, List.isEmpty_iff]
    simp only [List.eq_nil_iff_forall_not_mem, h.tags]
  rw [admits, admits, contains_congr hids, hempty, h.drafts, h.level]
  exact congrArg _ (congrArg _ hany)

/-- A selection in other words takes the same rules of a catalog that is alike. -/
theorem Selection.Rewords.resolve_eq (hc : c.Holds rules bundles) (ha : c.Alike c')
    (h : s.Rewords rules s') (hs : s.resolve c = .ok active) : s'.resolve c' = .ok active := by
  simp only [resolve, bind, except_bind_eq_ok, pure, Except.pure, Except.ok.injEq] at hs
  obtain ⟨named, hnamed, excluded, hexcluded, rfl⟩ := hs
  obtain ⟨named', hnamed', hn⟩ := hc.expandAll_rewords h.taken hnamed
  obtain ⟨excluded', hexcluded', he⟩ := hc.expandAll_rewords h.leftOut hexcluded
  rw [ha.expandAll_eq] at hnamed' hexcluded'
  simp only [resolve, hnamed', hexcluded', bind, Except.bind, pure, Except.pure, Except.ok.injEq]
  have hcandidates : sortedSet (if s'.taken.isEmpty then c'.rules.map Rule.id else named') =
      sortedSet (if s.taken.isEmpty then c.rules.map Rule.id else named) := by
    rw [h.taken.isEmpty_eq, Schedule.map_id_of_alike ha.ofRules]
    refine (sortedSet_increasing _).eq_of_mem_iff (sortedSet_increasing _) fun id => ?_
    rw [mem_sortedSet, mem_sortedSet]
    split
    · rfl
    · exact (hn id).symm
  rw [hcandidates]
  refine List.filter_congr fun id _ => ?_
  have hrel := ha.get?_rel id
  rw [contains_congr he]
  generalize c.get? id = q?, c'.get? id = r? at hrel ⊢
  cases hrel with
  | none => rfl
  | some har => rw [Option.any_some, Option.any_some, h.admits_eq hn har]

/-- A selection in other words has the same schedule, as far as ids and lints go. -/
theorem Selection.Rewords.ofSelection_eq (hc : c.Holds rules bundles)
    (hc' : c'.WellNamed) (ha : c.Alike c') (h : s.Rewords rules s') {a : Schedule}
    (hs : Schedule.ofSelection c s = .ok a) :
    ∃ a', Schedule.ofSelection c' s' = .ok a' ∧ a'.ids = a.ids ∧ a'.lints = a.lints := by
  simp only [Schedule.ofSelection, bind, except_bind_eq_ok] at hs
  obtain ⟨active, hactive, horder⟩ := hs
  have hsome := Schedule.isSome_of_order horder
  have hsome' : ∀ name ∈ active, (c'.get? name).isSome = true := by
    intro name hname
    have hrel := ha.get?_rel name
    obtain ⟨r, hr⟩ := Option.isSome_iff_exists.mp (hsome name hname)
    rw [hr] at hrel
    generalize c'.get? name = r? at hrel ⊢
    cases hrel with
    | some _ => rfl
  rw [Schedule.order_eq_ofRules hc.wellNamed hsome] at horder
  obtain ⟨a', ha', hids, hlints⟩ := Schedule.ofRules_of_alike (ha.named_alike active) horder
  refine ⟨a', ?_, hids, hlints⟩
  simp only [Schedule.ofSelection, h.resolve_eq hc ha hactive, bind, Except.bind]
  rw [Schedule.order_eq_ofRules hc' hsome', ha']

end Selections

/-- A name in a catalog is that of one rule at most, and constraints and bundles use ids only, each of
them once. -/
structure Catalog.Canonical (c : Catalog) : Prop where
  get_eq_some : ∀ name r, c.get? name = some r ↔ r ∈ c.rules ∧ r.info.answersTo name = true
  get_eq_none : ∀ name, c.get? name = none ↔ ∀ r ∈ c.rules, r.info.answersTo name = false
  unambiguous : Unambiguous c.rules
  constraints : ∀ r ∈ c.rules, r.info.after.Nodup ∧ r.info.before.Nodup ∧
    ∀ id ∈ r.info.after ++ r.info.before, id ∈ c.rules.map Rule.id
  members : ∀ d ∈ c.bundles, d.members.Nodup ∧ ∀ id ∈ d.members, id ∈ c.rules.map Rule.id

theorem Catalog.Holds.canonical {c : Catalog} {rules : List Rule} {bundles : List BundleSpec}
    (h : c.Holds rules bundles) : c.Canonical where
  get_eq_some _ _ := h.wellNamed.get?_eq_some
  get_eq_none name := by simp [get?, ruleNamed?]
  unambiguous q hq r hr _ hqn hrn := h.wellNamed.eq_of_answersTo hq hr hqn hrn
  constraints := by
    have hid : ∀ {name id}, Denotes rules name id → id ∈ c.rules.map Rule.id := by
      rintro name id ⟨q, hq, -, rfl⟩
      obtain ⟨r, hr, hqr⟩ := h.exists_rule hq
      exact List.mem_map.mpr ⟨r, hr, hqr.sameWork.id_eq.symm⟩
    intro r hr
    obtain ⟨q, -, hqr⟩ := h.of_rule hr
    refine ⟨hqr.nodup.1, hqr.nodup.2, List.forall_mem_append.mpr ⟨?_, ?_⟩⟩
    · intro id hin
      obtain ⟨_, -, hd⟩ := (hqr.after id).mp hin
      exact hid hd
    · intro id hin
      obtain ⟨_, -, hd⟩ := (hqr.before id).mp hin
      exact hid hd
  members := by
    intro d hd
    obtain ⟨b, -, hb⟩ := h.of_bundle hd
    refine ⟨hb.increasing.imp fun {_ _} hlt => ne_of_lt hlt, fun id hin => ?_⟩
    obtain ⟨q, hq, rfl⟩ := List.mem_map.mp (hb.ids id hin)
    obtain ⟨r, hr, hqr⟩ := h.exists_rule hq
    exact List.mem_map.mpr ⟨r, hr, hqr.sameWork.id_eq.symm⟩

/-- Which rules and bundles can be registered, what becomes of their names in the catalog, and that
neither the order of registration nor the wording of names and lists makes a difference to schedules. -/
theorem registration_exact (rules : List Rule) (bundles : List BundleSpec) :
    ((∃ c, Catalog.build rules bundles = .ok c) ↔ Registrable rules bundles) ∧
    (∀ c, Catalog.build rules bundles = .ok c → c.Holds rules bundles ∧ c.Canonical) ∧
    ∀ c sel schedule rules' bundles' sel', Catalog.build rules bundles = .ok c →
      Schedule.ofSelection c sel = .ok schedule → Reregisters rules bundles rules' bundles' →
      sel.Rewords rules sel' → ∃ c' schedule', Catalog.build rules' bundles' = .ok c' ∧
        Schedule.ofSelection c' sel' = .ok schedule' ∧ schedule'.ids = schedule.ids ∧
        schedule'.lints = schedule.lints := by
  refine ⟨Catalog.exists_build, fun c hc => ?_, ?_⟩
  · have hholds := Catalog.holds_of_build hc
    exact ⟨hholds, hholds.canonical⟩
  · intro c sel schedule rules' bundles' sel' hc hs h hsel
    have hreg := Catalog.exists_build.mp ⟨c, hc⟩
    obtain ⟨c', hc'⟩ := Catalog.exists_build.mpr (h.registrable hreg)
    have hholds := Catalog.holds_of_build hc
    have hholds' := Catalog.holds_of_build hc'
    obtain ⟨schedule', hs', hids, hlints⟩ :=
      hsel.ofSelection_eq hholds hholds'.wellNamed (h.alike hreg hholds hholds') hs
    exact ⟨c', schedule', hc', hs', hids, hlints⟩

section Example

open Schedule (idle)

/-- Two rules that call each other by different names, and a bundle of both. -/
def greek : List Rule := [idle "Alpha" ["A"] ["B"] [], idle "Beta" ["B"] [] ["Alpha"]]

def greekBundles : List BundleSpec := [⟨"Greek", "both", .listed ["A", "Beta"]⟩]

/-- The same in another order and with other names. -/
def greek' : List Rule := [idle "Beta" ["B"] [] ["A", "Alpha"], idle "Alpha" ["A"] ["Beta"] []]

def greekBundles' : List BundleSpec := [⟨"Greek", "both", .listed ["B", "A", "B"]⟩]

def greekCatalog : Catalog :=
  ⟨[idle "Alpha" ["A"] ["Beta"] [], idle "Beta" ["B"] [] ["Alpha"]], [⟨"Greek", "both", ["Alpha", "Beta"]⟩]⟩

theorem reregisters_greek : Reregisters greek greekBundles greek' greekBundles' where
  ofRules := by
    refine ⟨[idle "Beta" ["B"] [] ["Alpha"], idle "Alpha" ["A"] ["B"] []], .swap _ _ _, ?_⟩
    refine .cons ⟨⟨_, _, rfl⟩, ⟨by decide, by decide⟩, ⟨by decide, by decide⟩⟩ (.cons ?_ .nil)
    exact ⟨⟨_, _, rfl⟩, ⟨by decide, by decide⟩, ⟨by decide, by decide⟩⟩
  ofBundles := by
    refine ⟨greekBundles, .refl _, .cons ?_ .nil⟩
    exact ⟨rfl, rfl, _, _, rfl, rfl, by decide, by decide⟩

theorem greek_reworded : ∃ c schedule c' schedule',
    Catalog.build greek greekBundles = .ok c ∧
    Schedule.ofSelection c { Selection.standard with taken := ["Greek", "B"] } = .ok schedule ∧
    Catalog.build greek' greekBundles' = .ok c' ∧
    Schedule.ofSelection c' { Selection.standard with taken := ["Beta", "Greek", "Greek"] } =
      .ok schedule' ∧
    schedule.ids = ["Beta", "Alpha"] ∧ schedule'.ids = schedule.ids ∧
    schedule'.lints = schedule.lints := by
  have hc : Catalog.build greek greekBundles = .ok greekCatalog := by cbv
  have hs : Schedule.ofSelection greekCatalog
      { Selection.standard with taken := ["Greek", "B"] } =
      .ok ⟨[idle "Beta" ["B"] [] ["Alpha"], idle "Alpha" ["A"] ["Beta"] []], []⟩ := by cbv
  obtain ⟨c', schedule', hc', hs', hids, hlints⟩ :=
    (registration_exact greek greekBundles).2.2 _ _ _ _ _
      { Selection.standard with taken := ["Beta", "Greek", "Greek"] } hc hs reregisters_greek
      ⟨⟨by decide, by decide⟩, ⟨by simp [Selection.standard], by simp [Selection.standard]⟩, fun _ => Iff.rfl, rfl, rfl⟩
  exact ⟨_, _, c', schedule', hc, hs, hc', hs', rfl, hids, hlints⟩

end Example

end TreeTidy
