import TreeTidy.Proofs.Engine.Schedule
/-!
What can be registered together. A catalog is made of rules and bundles if and only if their names are
all different and every name that a constraint or a bundle uses is that of a rule; in the catalog, each
name is that of one rule at most, and constraints and bundles use ids only.
-/
namespace TreeTidy

/-- One of the rules answers to the name. -/
def Known (rules : List Rule) (name : String) : Prop := ∃ r ∈ rules, r.info.answersTo name = true

/-- The name is one of the rule that has the id. -/
def Denotes (rules : List Rule) (name id : String) : Prop :=
  ∃ r ∈ rules, r.info.answersTo name = true ∧ r.id = id

/-- No two of the rules answer to one name. -/
def Unambiguous (rules : List Rule) : Prop :=
  ∀ q ∈ rules, ∀ r ∈ rules, ∀ name, q.info.answersTo name = true → r.info.answersTo name = true → q = r

/-- The ids and other names of rules and the ids of bundles, as often as they are given. -/
def namesOf (rules : List Rule) (bundles : List BundleSpec) : List String :=
  rules.map Rule.id ++ (rules.flatMap fun r => r.info.aliases) ++ bundles.map BundleSpec.id

/-- What a catalog asks of the rules and bundles it is made of. -/
structure Registrable (rules : List Rule) (bundles : List BundleSpec) : Prop where
  names : (namesOf rules bundles).Nodup
  targets : ∀ r ∈ rules, ∀ target ∈ r.info.after ++ r.info.before, Known rules target
  members : ∀ b ∈ bundles, ∀ names, b.members = .listed names → ∀ name ∈ names, Known rules name

section Lookups

variable {rules : List Rule} {names ids : List String} {name rule : String} {q r : Rule}
  {e : String → CatalogError}

theorem of_ruleNamed? (h : ruleNamed? rules name = some r) :
    r ∈ rules ∧ r.info.answersTo name = true := by
  rw [ruleNamed?] at h
  exact ⟨List.mem_of_find?_eq_some h, by simpa using List.find?_some h⟩

theorem exists_ruleNamed? : (∃ r, ruleNamed? rules name = some r) ↔ Known rules name := by
  rw [← Option.isSome_iff_exists, ruleNamed?, List.find?_isSome]
  rfl

/-- The id of the rule that answers to a name, or an error that blames the name. -/
def idOf (rules : List Rule) (e : String → CatalogError) (name : String) :
    Except CatalogError String :=
  match ruleNamed? rules name with
  | some r => .ok r.id
  | none => .error (e name)

theorem exists_idOf : (∃ id, idOf rules e name = .ok id) ↔ Known rules name := by
  rw [← exists_ruleNamed?, idOf]
  cases ruleNamed? rules name <;> simp

theorem idOf_eq_ok (hu : Unambiguous rules) {id : String} :
    idOf rules e name = .ok id ↔ Denotes rules name id := by
  rw [idOf]
  constructor
  · intro h
    split at h
    next r hr =>
      cases h
      exact ⟨r, (of_ruleNamed? hr).1, (of_ruleNamed? hr).2, rfl⟩
    · cases h
  · rintro ⟨r, hr, hn, rfl⟩
    obtain ⟨q, hq⟩ := exists_ruleNamed?.mpr ⟨r, hr, hn⟩
    rw [hq, hu q (of_ruleNamed? hq).1 r hr name (of_ruleNamed? hq).2 hn]

theorem exists_idsOf : (∃ ids, names.mapM (idOf rules e) = .ok ids) ↔
    ∀ name ∈ names, Known rules name := by
  simp only [exists_mapM_eq_ok, exists_idOf]

theorem mem_idsOf (hu : Unambiguous rules) (h : names.mapM (idOf rules e) = .ok ids) (id : String) :
    id ∈ ids ↔ ∃ name ∈ names, Denotes rules name id := by
  constructor
  · intro hid
    obtain ⟨name, hname, hn⟩ := exists_of_mapM_eq_ok h id hid
    exact ⟨name, hname, (idOf_eq_ok hu).mp hn⟩
  · rintro ⟨name, hname, hn⟩
    obtain ⟨id', hid', hn'⟩ := ok_of_mapM_eq_ok h name hname
    rw [(idOf_eq_ok hu).mpr hn] at hn'
    exact Except.ok.inj hn' ▸ hid'

theorem resolveTargets_eq (rules : List Rule) (rule : String) (targets : List String) :
    resolveTargets rules rule targets =
      (targets.mapM (idOf rules (.unknownOrderingTarget rule))).map List.eraseDups := by
  rw [resolveTargets]
  change (targets.mapM (idOf rules (.unknownOrderingTarget rule))).bind _ = _
  cases targets.mapM (idOf rules (.unknownOrderingTarget rule)) <;> rfl

theorem resolveMembers_eq (rules : List Rule) (bundle : String) (names : List String) :
    resolveMembers rules bundle (.listed names) =
      (names.mapM (idOf rules (.unknownBundleMember bundle))).map sortedSet := by
  rw [resolveMembers]
  change (names.mapM (idOf rules (.unknownBundleMember bundle))).bind _ = _
  cases names.mapM (idOf rules (.unknownBundleMember bundle)) <;> rfl

end Lookups

section Resolved

variable {rules : List Rule} {q r : Rule} {b : BundleSpec} {d : Bundle} {specs : List BundleSpec}
  {ds : List Bundle} {taken : List String}

/-- What a registered rule becomes in a catalog: its constraints are on ids, each named once. -/
structure Resolves (rules : List Rule) (q r : Rule) : Prop where
  sameWork : q.SameWork r
  nodup : r.info.after.Nodup ∧ r.info.before.Nodup
  after : ∀ id, id ∈ r.info.after ↔ ∃ name ∈ q.info.after, Denotes rules name id
  before : ∀ id, id ∈ r.info.before ↔ ∃ name ∈ q.info.before, Denotes rules name id

theorem exists_resolveTargets (rule : String) {targets : List String} :
    (∃ ids, resolveTargets rules rule targets = .ok ids) ↔
      ∀ target ∈ targets, Known rules target := by
  rw [resolveTargets_eq, ← exists_idsOf (e := .unknownOrderingTarget rule)]
  cases targets.mapM (idOf rules (.unknownOrderingTarget rule)) <;> simp [Except.map]

theorem of_resolveTargets (hu : Unambiguous rules) {rule : String} {targets ids : List String}
    (h : resolveTargets rules rule targets = .ok ids) :
    ids.Nodup ∧ ∀ id, id ∈ ids ↔ ∃ name ∈ targets, Denotes rules name id := by
  rw [resolveTargets_eq] at h
  cases hm : targets.mapM (idOf rules (.unknownOrderingTarget rule)) with
  | error e =>
    rw [hm] at h
    cases h
  | ok found =>
    rw [hm] at h
    cases h
    exact ⟨nodup_eraseDups _, fun id => List.mem_eraseDups.trans (mem_idsOf hu hm id)⟩

theorem exists_resolveRule : (∃ r, resolveRule rules q = .ok r) ↔
    ∀ target ∈ q.info.after ++ q.info.before, Known rules target := by
  rw [List.forall_mem_append, ← exists_resolveTargets q.id, ← exists_resolveTargets q.id]
  simp only [resolveRule, bind, except_bind_eq_ok, pure, Except.pure, Except.ok.injEq]
  constructor
  · rintro ⟨_, after, ha, before, hb, -⟩
    exact ⟨⟨after, ha⟩, before, hb⟩
  · rintro ⟨⟨after, ha⟩, before, hb⟩
    exact ⟨_, after, ha, before, hb, rfl⟩

theorem resolves_of_resolveRule (hu : Unambiguous rules) (h : resolveRule rules q = .ok r) :
    Resolves rules q r := by
  have hsame := sameWork_of_resolveRule h
  simp only [resolveRule, bind, except_bind_eq_ok, pure, Except.pure, Except.ok.injEq] at h
  obtain ⟨after, ha, before, hb, rfl⟩ := h
  obtain ⟨hna, hma⟩ := of_resolveTargets hu ha
  obtain ⟨hnb, hmb⟩ := of_resolveTargets hu hb
  exact ⟨hsame, ⟨hna, hnb⟩, hma, hmb⟩

/-- What a registered bundle becomes in a catalog: its members are ids, in order. -/
structure BundleSpec.Resolves (rules : List Rule) (b : BundleSpec) (d : Bundle) : Prop where
  id : d.id = b.id
  description : d.description = b.description
  increasing : d.members.Pairwise (· < ·)
  ids : ∀ id ∈ d.members, id ∈ rules.map Rule.id
  members : ∀ names, b.members = .listed names →
    ∀ id, id ∈ d.members ↔ ∃ name ∈ names, Denotes rules name id

/-- The members that a bundle lists are known. -/
def BundleSpec.Listable (rules : List Rule) (b : BundleSpec) : Prop :=
  ∀ names, b.members = .listed names → ∀ name ∈ names, Known rules name

theorem exists_resolveMembers :
    (∃ ids, resolveMembers rules b.id b.members = .ok ids) ↔ b.Listable rules := by
  rw [BundleSpec.Listable]
  cases b.members with
  | listed names =>
    simp only [BundleMembers.listed.injEq, forall_eq']
    rw [resolveMembers_eq, ← exists_idsOf (e := .unknownBundleMember b.id)]
    cases names.mapM (idOf rules (.unknownBundleMember b.id)) <;> simp [Except.map]
  | matching filter => exact ⟨fun _ _ h => (nomatch h), fun _ => ⟨_, rfl⟩⟩

theorem resolves_of_resolveMembers (hu : Unambiguous rules) {ids : List String}
    (h : resolveMembers rules b.id b.members = .ok ids) :
    b.Resolves rules ⟨b.id, b.description, ids⟩ := by
  cases hb : b.members with
  | listed names =>
    rw [hb, resolveMembers_eq] at h
    cases hm : names.mapM (idOf rules (.unknownBundleMember b.id)) with
    | error e =>
      rw [hm] at h
      cases h
    | ok found =>
      rw [hm] at h
      cases h
      have hmem := fun id => mem_sortedSet.trans (mem_idsOf hu hm id)
      refine ⟨rfl, rfl, sortedSet_increasing _, ?_, ?_⟩
      · intro id hid
        obtain ⟨_, _, r, hr, -, rfl⟩ := (hmem id).mp hid
        exact List.mem_map_of_mem hr
      · intro names' hn
        rw [hb] at hn
        cases hn
        exact hmem
  | matching filter =>
    rw [hb] at h
    cases h
    refine ⟨rfl, rfl, sortedSet_increasing _, ?_, fun names hn => by rw [hb] at hn; cases hn⟩
    intro id hid
    obtain ⟨r, hr, rfl⟩ := List.mem_map.mp (mem_sortedSet.mp hid)
    exact List.mem_map_of_mem (List.mem_of_mem_filter hr)

theorem exists_resolveBundles : (∃ ds, resolveBundles rules taken specs = .ok ds) ↔
    (specs.map BundleSpec.id).Nodup ∧ (∀ b ∈ specs, b.id ∉ taken) ∧
      ∀ b ∈ specs, b.Listable rules := by
  induction specs generalizing taken with
  | nil => simp [resolveBundles]
  | cons b specs ih =>
    rw [resolveBundles, List.map_cons, List.nodup_cons, List.forall_mem_cons, List.forall_mem_cons]
    by_cases hb : b.id ∈ taken
    · simp [hb]
    · simp only [List.contains_iff_mem, hb, if_false, bind, except_bind_eq_ok, pure, Except.pure,
        Except.ok.injEq, not_false_eq_true, true_and]
      rw [← exists_resolveMembers (b := b)]
      replace ih := @ih (b.id :: taken)
      constructor
      · rintro ⟨_, ids, hids, ds, hds, -⟩
        obtain ⟨hnodup, hnew, hlist⟩ := ih.mp ⟨ds, hds⟩
        refine ⟨⟨?_, hnodup⟩, fun b' hb' hin => hnew b' hb' (.tail _ hin), ⟨ids, hids⟩, hlist⟩
        intro hin
        obtain ⟨b', hb', he⟩ := List.mem_map.mp hin
        exact hnew b' hb' (he ▸ .head _)
      · rintro ⟨⟨hfirst, hnodup⟩, hnew, ⟨ids, hids⟩, hlist⟩
        obtain ⟨ds, hds⟩ := ih.mpr ⟨hnodup, fun b' hb' => List.not_mem_cons_of_ne_of_not_mem
          (fun he => hfirst (he ▸ List.mem_map_of_mem hb')) (hnew b' hb'), hlist⟩
        exact ⟨_, ids, hids, ds, hds, rfl⟩

theorem resolves_of_resolveBundles (hu : Unambiguous rules)
    (h : resolveBundles rules taken specs = .ok ds) :
    List.Forall₂ (BundleSpec.Resolves rules) specs ds := by
  induction specs generalizing taken ds with
  | nil =>
    cases h
    exact .nil
  | cons b specs ih =>
    rw [resolveBundles] at h
    split at h
    · cases h
    · simp only [bind, except_bind_eq_ok, pure, Except.pure, Except.ok.injEq] at h
      obtain ⟨ids, hids, ds, hds, rfl⟩ := h
      exact .cons (resolves_of_resolveMembers hu hids) (ih hds)

end Resolved

section Reordered

variable {rules rules' : List Rule} {q r : Rule} {b : BundleSpec} {d : Bundle} {name id : String}

theorem known_iff_of_perm (h : rules'.Perm rules) :
    Known rules' name ↔ Known rules name := by
  simp only [Known, h.mem_iff]

theorem denotes_iff_of_perm (h : rules'.Perm rules) :
    Denotes rules' name id ↔ Denotes rules name id := by
  simp only [Denotes, h.mem_iff]

theorem Resolves.of_perm (hp : rules'.Perm rules) (h : Resolves rules' q r) : Resolves rules q r := by
  obtain ⟨hsame, hnodup, hafter, hbefore⟩ := h
  simp only [denotes_iff_of_perm hp] at hafter hbefore
  exact ⟨hsame, hnodup, hafter, hbefore⟩

theorem BundleSpec.Resolves.of_perm (hp : rules'.Perm rules) (h : b.Resolves rules' d) :
    b.Resolves rules d := by
  obtain ⟨hid, hdescription, hincreasing, hids, hmembers⟩ := h
  simp only [denotes_iff_of_perm hp] at hmembers
  exact ⟨hid, hdescription, hincreasing, fun id hin => (hp.map _).mem_iff.mp (hids id hin), hmembers⟩

end Reordered

namespace Catalog

variable {rules : List Rule} {bundles : List BundleSpec} {c : Catalog}

/-- The rules in order of their ids. -/
def sorted (rules : List Rule) : List Rule := rules.mergeSort fun a b => decide (a.id ≤ b.id)

theorem sorted_perm (rules : List Rule) : (sorted rules).Perm rules := List.mergeSort_perm _ _

theorem namesOf_perm {rules' : List Rule} (h : rules'.Perm rules) :
    (namesOf rules' bundles).Perm (namesOf rules bundles) :=
  ((h.map _).append (h.flatMap_right _)).append_right _

theorem unambiguous_of_nodup (h : (namesOf rules bundles).Nodup) : Unambiguous rules :=
  fun _ hq _ hr _ => eq_of_answersTo (List.nodup_append.mp h).1 hq hr

/-- The names of the rules, as a catalog looks for repeated ones. -/
def ruleNames (rules : List Rule) : List String :=
  (sorted rules).map Rule.id ++ (sorted rules).flatMap fun r => r.info.aliases

theorem build_eq_ok : build rules bundles = .ok c ↔ (ruleNames rules).Nodup ∧
    ∃ resolved, (sorted rules).mapM (resolveRule (sorted rules)) = .ok resolved ∧
    ∃ ds, resolveBundles (sorted rules) (ruleNames rules) bundles = .ok ds ∧
      ⟨resolved, ds.mergeSort fun a b => decide (a.id ≤ b.id)⟩ = c := by
  have hnone : firstRepeat? [] (ruleNames rules) = none ↔ _ := firstRepeat?_eq_none
  simp only [List.not_mem_nil, not_false_eq_true, implies_true, and_true] at hnone
  rw [← hnone, build]
  cases hr : firstRepeat? [] (ruleNames rules) with
  | some id =>
    rw [ruleNames, sorted] at hr
    simp only [hr]
    refine iff_of_false (fun h => ?_) fun h => ?_
    · cases h
    · cases h.1
  | none =>
    rw [ruleNames, sorted] at hr
    simp only [hr, bind, except_bind_eq_ok, pure, Except.pure, Except.ok.injEq, true_and]
    rfl

/-- A catalog can be made of what is registrable, and of nothing else. -/
theorem exists_build : (∃ c, build rules bundles = .ok c) ↔ Registrable rules bundles := by
  have hperm := sorted_perm rules
  have htargets : (∃ resolved, (sorted rules).mapM (resolveRule (sorted rules)) = .ok resolved) ↔
      ∀ r ∈ rules, ∀ target ∈ r.info.after ++ r.info.before, Known rules target := by
    simp only [exists_mapM_eq_ok, exists_resolveRule, hperm.mem_iff, known_iff_of_perm hperm]
  have hmembers : (∀ b ∈ bundles, b.Listable (sorted rules)) ↔
      ∀ b ∈ bundles, b.Listable rules := by
    simp only [BundleSpec.Listable, known_iff_of_perm hperm]
  have hnames : (namesOf rules bundles).Nodup ↔ (ruleNames rules).Nodup ∧
      (bundles.map BundleSpec.id).Nodup ∧ ∀ b ∈ bundles, b.id ∉ ruleNames rules := by
    rw [← (namesOf_perm hperm).nodup_iff, namesOf, ← ruleNames, List.nodup_append']
    simp [List.disjoint_right]
  simp only [build_eq_ok]
  constructor
  · rintro ⟨_, hnodup, resolved, hres, ds, hds, -⟩
    obtain ⟨hids, hnew, hlist⟩ := exists_resolveBundles.mp ⟨ds, hds⟩
    exact ⟨hnames.mpr ⟨hnodup, hids, hnew⟩, htargets.mp ⟨resolved, hres⟩, hmembers.mp hlist⟩
  · intro h
    obtain ⟨hnodup, hids, hnew⟩ := hnames.mp h.names
    obtain ⟨resolved, hres⟩ := htargets.mpr h.targets
    obtain ⟨ds, hds⟩ := exists_resolveBundles.mpr ⟨hids, hnew, hmembers.mpr h.members⟩
    exact ⟨_, hnodup, resolved, hres, ds, hds, rfl⟩

/-- What a catalog holds of what was registered. -/
structure Holds (c : Catalog) (rules : List Rule) (bundles : List BundleSpec) : Prop where
  wellNamed : c.WellNamed
  ofRules : ∃ qs, qs.Perm rules ∧ List.Forall₂ (Resolves rules) qs c.rules
  increasing : c.bundles.Pairwise fun a b => a.id < b.id
  ofBundles : ∃ ds, ds.Perm c.bundles ∧ List.Forall₂ (BundleSpec.Resolves rules) bundles ds

theorem holds_of_build (h : build rules bundles = .ok c) : c.Holds rules bundles := by
  have hwell := wellNamed_of_build h
  have hreg := exists_build.mp ⟨c, h⟩
  have hperm := sorted_perm rules
  have hnames : (namesOf (sorted rules) bundles).Perm (namesOf rules bundles) := namesOf_perm hperm
  have hu : Unambiguous (sorted rules) := unambiguous_of_nodup (hnames.nodup_iff.mpr hreg.names)
  obtain ⟨-, resolved, hres, ds, hds, rfl⟩ := build_eq_ok.mp h
  have hbundles := resolves_of_resolveBundles hu hds
  have hids : bundles.map BundleSpec.id = ds.map Bundle.id :=
    map_eq_of_forall₂ (hbundles.imp fun _ _ hb => hb.id.symm)
  have hnodup : (ds.map Bundle.id).Nodup := hids ▸ (List.nodup_append.mp hreg.names).2.1
  refine ⟨hwell, ⟨sorted rules, hperm, ?_⟩, increasing_mergeSort Bundle.id hnodup, ds,
    (List.mergeSort_perm _ _).symm, ?_⟩
  · exact (mapM_eq_ok.mp hres).imp fun q r hr => (resolves_of_resolveRule hu hr).of_perm hperm
  · exact hbundles.imp fun b d hb => hb.of_perm hperm

end Catalog

end TreeTidy
