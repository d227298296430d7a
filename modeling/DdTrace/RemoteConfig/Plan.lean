import DdTrace.RemoteConfig.ParseConfig

/-!
# What a response changes

The loop over `client_configs`, read as a whole.  A path of the response is `Unchanged` when its
entry has the digest of the target; otherwise it brings an item, which is `Fresh` or `Modified`.

* `foldlM_planPath`: when no path throws, the lists grow by such items, path by path.
* `plan_eq_ok`: the plan of a response with an index.
* `fits_plan`: when the response lists no path twice, the transaction fits the applied
  configurations.
* `isOk_foldlM_planPath`: the loop throws exactly when one of the paths is not `Readable`, which
  says what the code asks of the response and of the entry it already has.
-/

namespace DdTrace.RemoteConfig

open Library List

variable {F : Type} {r : Response F} {targets : Targets} {applied : AppliedConfigs F}

/-! ## Computations that may throw -/

theorem bind_eq_ok {ε α β : Type} {x : Except ε α} {f : α → Except ε β} {b : β} :
    x >>= f = .ok b ↔ ∃ a, x = .ok a ∧ f a = .ok b := by
  cases x with
  | error e => exact iff_of_false nofun fun ⟨_, h, _⟩ => by cases h
  | ok a => exact ⟨fun h => ⟨a, rfl, h⟩, fun ⟨_, h, hf⟩ => by cases h; exact hf⟩

theorem orThrow_eq_ok {α : Type} {o : Option α} {e : RcError} {a : α} :
    orThrow o e = .ok a ↔ o = some a := by
  cases o with
  | none => exact iff_of_false nofun nofun
  | some b => exact ⟨fun h => by cases h; rfl, fun h => by cases h; rfl⟩

theorem map_eq_ok {ε α β : Type} {x : Except ε α} {f : α → β} {b : β} :
    (do return f (← x)) = .ok b ↔ ∃ a, x = .ok a ∧ b = f a := by
  rw [bind_eq_ok]
  exact exists_congr fun a => and_congr_right fun _ =>
    ⟨fun h => by cases h; rfl, fun h => by rw [h]; rfl⟩

/-! ## The items a response brings -/

variable {item : RcConfigState F}

/-- The object made for a path. -/
theorem newConf_eq_ok {target : TargetMeta} {object : ℕ} {path : Str} :
    newConf r target object path = .ok item ↔ ∃ file product id version content,
        r.targetFiles.find? (fun file => file.path = path) = some file ∧
          parseConfigPath path = some (product, id) ∧ target.custom = some version ∧
          fromBase64JSON file.raw = .ok content ∧
          item = ⟨object, path, product, id, version, .unacknowledged, [], target.length,
            target.hashes, content⟩ := by
  unfold newConf
  simp only [bind_eq_ok, orThrow_eq_ok]
  constructor
  · rintro ⟨file, hfile, ⟨product, id⟩, hpath, version, hversion, content, hcontent, h⟩
    cases h
    exact ⟨file, product, id, version, content, hfile, hpath, hversion, hcontent, rfl⟩
  · rintro ⟨file, product, id, version, content, hfile, hpath, hversion, hcontent, rfl⟩
    exact ⟨file, hfile, (product, id), hpath, version, hversion, content, hcontent, rfl⟩

/-- The item was made for its path from the response. -/
def Brought (r : Response F) (targets : Targets) (item : RcConfigState F) : Prop :=
  ∃ target, targetOf targets item.path = .ok target ∧
    newConf r target item.object item.path = .ok item

/-- The entry of the path and its target, with their hashes. -/
structure Compared (applied : AppliedConfigs F) (targets : Targets) (path : Str)
    (current : RcConfigState F) (target : TargetMeta) (h h' : Hashes) : Prop where
  entry : applied.get? path = some current
  index : targetOf targets path = .ok target
  hashes : current.hashes = some h
  hashes' : target.hashes = some h'

/-- The path has an entry with the digest of its target. -/
def Unchanged (applied : AppliedConfigs F) (targets : Targets) (path : Str) : Prop :=
  ∃ current target h h', Compared applied targets path current target h h' ∧ sha256 h = sha256 h'

/-- The item is of a path that has no entry. -/
def Fresh (applied : AppliedConfigs F) (r : Response F) (targets : Targets)
    (item : RcConfigState F) : Prop :=
  applied.get? item.path = none ∧ Brought r targets item

/-- The item is of a path whose entry has another digest. -/
def Modified (applied : AppliedConfigs F) (r : Response F) (targets : Targets)
    (item : RcConfigState F) : Prop :=
  Brought r targets item ∧ ∃ current target h h',
    Compared applied targets item.path current target h h' ∧ sha256 h ≠ sha256 h'

theorem newConf_fields {target : TargetMeta} {object : ℕ} {path : Str}
    (h : newConf r target object path = .ok item) : item.path = path ∧ item.object = object := by
  obtain ⟨_, _, _, _, _, -, -, -, -, rfl⟩ := newConf_eq_ok.mp h
  exact ⟨rfl, rfl⟩

theorem Brought.path (h : Brought r targets item) :
    parseConfigPath item.path = some (item.product, item.id) := by
  obtain ⟨target, -, hnew⟩ := h
  obtain ⟨file, product, id, version, content, -, hpath, -, -, hitem⟩ := newConf_eq_ok.mp hnew
  rw [hpath, hitem]

theorem Brought.unacknowledged (h : Brought r targets item) :
    item.applyState = .unacknowledged ∧ item.applyError = [] := by
  obtain ⟨target, -, hnew⟩ := h
  obtain ⟨file, product, id, version, content, -, -, -, -, hitem⟩ := newConf_eq_ok.mp hnew
  rw [hitem]
  exact ⟨rfl, rfl⟩

/-- The item has the version, the length and the hashes of its target. -/
theorem Brought.target (h : Brought r targets item) :
    ∃ target, targetOf targets item.path = .ok target ∧ target.custom = some item.version ∧
      item.length = target.length ∧ item.hashes = target.hashes := by
  obtain ⟨target, htarget, hnew⟩ := h
  obtain ⟨file, product, id, version, content, -, -, hversion, -, hitem⟩ := newConf_eq_ok.mp hnew
  refine ⟨target, htarget, ?_⟩
  rw [hitem]
  exact ⟨hversion, rfl, rfl⟩

/-! ## The loop -/

/-- One path of the loop: it is unchanged, or brings an item. -/
theorem planPath_eq_ok {p p' : Plan F} {path : Str} : planPath applied r targets p path = .ok p' ↔
      (Unchanged applied targets path ∧ p' = p) ∨
      (∃ item, item.path = path ∧ item.object = p.objects ∧ Modified applied r targets item ∧
        p' = p.pushModify item) ∨
      (∃ item, item.path = path ∧ item.object = p.objects ∧ Fresh applied r targets item ∧
        p' = p.pushApply item) := by
  unfold planPath
  rw [bind_eq_ok]
  cases hcurrent : applied.get? path with
  | none =>
    simp only [map_eq_ok]
    constructor
    · rintro ⟨target, htarget, item, hnew, rfl⟩
      obtain ⟨rfl, hobject⟩ := newConf_fields hnew
      exact Or.inr (Or.inr ⟨item, rfl, hobject, ⟨hcurrent, target, htarget, by rwa [hobject]⟩, rfl⟩)
    · rintro (⟨⟨current, target, h, h', hc, -⟩, -⟩ |
        ⟨item, rfl, -, ⟨-, current, target, h, h', hc, -⟩, -⟩ | ⟨item, rfl, hobject, hf, rfl⟩)
      · rw [hc.entry] at hcurrent
        cases hcurrent
      · rw [hc.entry] at hcurrent
        cases hcurrent
      · obtain ⟨-, target, htarget, hnew⟩ := hf
        exact ⟨target, htarget, item, by rwa [← hobject], rfl⟩
  | some current =>
    simp only [bind_eq_ok, orThrow_eq_ok]
    constructor
    · rintro ⟨target, htarget, h, hh, h', hh', hp⟩
      have hc : Compared applied targets path current target h h' := ⟨hcurrent, htarget, hh, hh'⟩
      by_cases hsha : sha256 h = sha256 h'
      · rw [if_pos hsha] at hp
        cases hp
        exact Or.inl ⟨⟨current, target, h, h', hc, hsha⟩, rfl⟩
      · rw [if_neg hsha, map_eq_ok] at hp
        obtain ⟨item, hnew, rfl⟩ := hp
        obtain ⟨rfl, hobject⟩ := newConf_fields hnew
        exact Or.inr (Or.inl ⟨item, rfl, hobject, ⟨⟨target, htarget, by rwa [hobject]⟩,
          current, target, h, h', hc, hsha⟩, rfl⟩)
    · rintro (⟨⟨current', target, h, h', hc, hsha⟩, rfl⟩ |
        ⟨item, rfl, hobject, ⟨⟨target₀, htarget₀, hnew⟩, current', target, h, h', hc, hsha⟩, rfl⟩ |
        ⟨item, rfl, -, ⟨hnone, -⟩, -⟩)
      · have hsame := hc.entry
        rw [hcurrent, Option.some_inj] at hsame
        rw [hsame]
        refine ⟨target, hc.index, h, hc.hashes, h', hc.hashes', ?_⟩
        rw [if_pos hsha]
        rfl
      · have hsame := hc.entry
        rw [hcurrent, Option.some_inj] at hsame
        rw [hsame]
        rw [hc.index, Except.ok.injEq] at htarget₀
        refine ⟨target, hc.index, h, hc.hashes, h', hc.hashes', ?_⟩
        rw [if_neg hsha, map_eq_ok]
        exact ⟨item, by rwa [htarget₀, ← hobject], rfl⟩
      · rw [hnone] at hcurrent
        cases hcurrent

/-- The lists have grown by the items `A` and `M` of the paths `l`. -/
structure Grown (applied : AppliedConfigs F) (r : Response F) (targets : Targets) (l : List Str)
    (p p' : Plan F) (A M : List (RcConfigState F)) : Prop where
  toUnapply : p'.toUnapply = p.toUnapply
  toApply : p'.toApply = p.toApply ++ A
  toModify : p'.toModify = p.toModify ++ M
  fresh : ∀ item ∈ A, Fresh applied r targets item
  modified : ∀ item ∈ M, Modified applied r targets item
  freshPaths : (A.map RcConfigState.path).Sublist l
  modifiedPaths : (M.map RcConfigState.path).Sublist l
  covers : ∀ path ∈ l, Unchanged applied targets path ∨ path ∈ A.map RcConfigState.path ∨
    path ∈ M.map RcConfigState.path

/-- **The loop**: when it does not throw, every path of the response is unchanged or brings an
item. -/
theorem foldlM_planPath {l : List Str} {p p' : Plan F}
    (h : l.foldlM (planPath applied r targets) p = .ok p') :
    ∃ fresh modified, Grown applied r targets l p p' fresh modified := by
  induction l generalizing p with
  | nil =>
    cases h
    exact ⟨[], [], rfl, (append_nil _).symm, (append_nil _).symm, nofun, nofun,
      List.Sublist.refl _, List.Sublist.refl _, nofun⟩
  | cons path l ih =>
    rw [foldlM_cons, bind_eq_ok] at h
    obtain ⟨p₁, hp₁, h⟩ := h
    obtain ⟨fresh, modified, g⟩ := ih h
    rcases planPath_eq_ok.mp hp₁ with ⟨hun, rfl⟩ | ⟨item, rfl, -, hitem, rfl⟩ |
      ⟨item, rfl, -, hitem, rfl⟩
    · refine ⟨fresh, modified, g.toUnapply, g.toApply, g.toModify, g.fresh, g.modified,
        g.freshPaths.cons _, g.modifiedPaths.cons _, fun path' hpath' => ?_⟩
      rcases mem_cons.mp hpath' with rfl | hpath'
      · exact Or.inl hun
      · exact g.covers path' hpath'
    · refine ⟨fresh, item :: modified, g.toUnapply, g.toApply, ?_, g.fresh, fun i hi => ?_,
        g.freshPaths.cons _, g.modifiedPaths.cons_cons _, fun path' hpath' => ?_⟩
      · rw [g.toModify, Plan.pushModify, append_assoc]
        rfl
      · rcases mem_cons.mp hi with rfl | hi
        · exact hitem
        · exact g.modified i hi
      · rcases mem_cons.mp hpath' with rfl | hpath'
        · exact Or.inr (Or.inr mem_cons_self)
        · exact (g.covers path' hpath').imp_right (Or.imp_right (mem_cons_of_mem _))
    · refine ⟨item :: fresh, modified, g.toUnapply, ?_, g.toModify, fun i hi => ?_, g.modified,
        g.freshPaths.cons_cons _, g.modifiedPaths.cons _, fun path' hpath' => ?_⟩
      · rw [g.toApply, Plan.pushApply, append_assoc]
        rfl
      · rcases mem_cons.mp hi with rfl | hi
        · exact hitem
        · exact g.fresh i hi
      · rcases mem_cons.mp hpath' with rfl | hpath'
        · exact Or.inr (Or.inl mem_cons_self)
        · exact (g.covers path' hpath').imp_right (Or.imp_left (mem_cons_of_mem _))

/-! ## The transaction -/

/-- What the plan of a response that has an index holds. -/
theorem plan_eq_ok {s : RcClient F} {p : Plan F} {signed : Option SignedTargets}
    (h : plan s r = .ok (p, signed)) :
    (fromBase64JSON r.targets = .ok none ∧ p = planUnapply s r ∧ signed = none) ∨
      ∃ targets signed', fromBase64JSON r.targets = .ok (some targets) ∧
        r.clientConfigs.foldlM (planPath s.appliedConfigs r targets) (planUnapply s r) = .ok p ∧
          targets.signed = some signed' ∧ signed = some signed' := by
  unfold plan at h
  rw [bind_eq_ok] at h
  obtain ⟨targets, htargets, h⟩ := h
  cases targets with
  | none =>
    cases h
    exact Or.inl ⟨htargets, rfl, rfl⟩
  | some targets =>
    simp only [bind_eq_ok, orThrow_eq_ok] at h
    obtain ⟨p', hp', signed', hsigned', h⟩ := h
    cases h
    exact Or.inr ⟨targets, signed', htargets, hp', hsigned', rfl⟩

/-- The lists of a plan. -/
structure Planned (s : RcClient F) (r : Response F) (targets : Targets) (p : Plan F) : Prop where
  toUnapply : p.toUnapply = s.appliedConfigs.values.filter fun conf => !includes r.clientConfigs conf.path
  fresh : ∀ item ∈ p.toApply, Fresh s.appliedConfigs r targets item
  modified : ∀ item ∈ p.toModify, Modified s.appliedConfigs r targets item
  freshPaths : (p.toApply.map RcConfigState.path).Sublist r.clientConfigs
  modifiedPaths : (p.toModify.map RcConfigState.path).Sublist r.clientConfigs
  covers : ∀ path ∈ r.clientConfigs, Unchanged s.appliedConfigs targets path ∨
    path ∈ p.toApply.map RcConfigState.path ∨ path ∈ p.toModify.map RcConfigState.path

theorem planned_of_foldlM {s : RcClient F} {p : Plan F}
    (h : r.clientConfigs.foldlM (planPath s.appliedConfigs r targets) (planUnapply s r) = .ok p) :
    Planned s r targets p := by
  obtain ⟨fresh, modified, g⟩ := foldlM_planPath h
  have happly : p.toApply = fresh := g.toApply
  have hmodify : p.toModify = modified := g.toModify
  subst happly hmodify
  exact ⟨g.toUnapply, g.fresh, g.modified, g.freshPaths, g.modifiedPaths, g.covers⟩

variable {s : RcClient F} {p : Plan F}

theorem mem_toUnapply (hkeyed : Transaction.Keyed s.appliedConfigs) (h : Planned s r targets p) :
    item ∈ p.toUnapply ↔ s.appliedConfigs.get? item.path = some item ∧
      item.path ∉ r.clientConfigs := by
  rw [h.toUnapply, mem_filter, OrderedMap.mem_values_iff, Bool.not_eq_true', includes_eq_false_iff]
  refine and_congr_left fun _ => ⟨?_, fun hget => ⟨item.path, hget⟩⟩
  rintro ⟨path, hget⟩
  rwa [(hkeyed path item hget).1]

/-- **The transaction of a response fits the applied configurations**, when the response lists no
path twice. -/
theorem fits_of_planned (hkeyed : Transaction.Keyed s.appliedConfigs) (h : Planned s r targets p)
    (hnodup : r.clientConfigs.Nodup) : p.transaction.Fits s.appliedConfigs := by
  have hpath : ∀ item ∈ p.transaction.delivered, item.path ∈ r.clientConfigs := by
    intro item hitem
    rcases mem_append.mp hitem with hitem | hitem
    · exact h.freshPaths.subset (mem_map_of_mem hitem)
    · exact h.modifiedPaths.subset (mem_map_of_mem hitem)
  refine ⟨fun item hitem => ((mem_toUnapply hkeyed h).mp hitem).1, fun item hitem =>
    (h.fresh item hitem).1, fun item hitem => ?_, fun item hitem => ?_, ?_⟩
  · obtain ⟨-, current, target, h₁, h₂, hc, -⟩ := h.modified item hitem
    exact ⟨current, hc.entry⟩
  · rcases mem_append.mp hitem with hitem | hitem
    · exact (h.fresh item hitem).2.path
    · exact (h.modified item hitem).1.path
  · rw [map_append, nodup_append]
    refine ⟨?_, ?_, ?_⟩
    · show (p.toUnapply.map RcConfigState.path).Nodup
      have hvalues : (s.appliedConfigs.values.map RcConfigState.path).Nodup := by
        have hkeys : s.appliedConfigs.values.map RcConfigState.path = s.appliedConfigs.keys := by
          rw [OrderedMap.values, map_map]
          refine map_congr_left fun e he => ?_
          exact (hkeyed e.1 e.2 (OrderedMap.mem_entries_iff.mp he)).1
        rw [hkeys]
        exact s.appliedConfigs.nodup_keys
      rw [h.toUnapply]
      exact hvalues.sublist (filter_sublist.map _)
    · rw [Transaction.delivered, map_append, nodup_append]
      refine ⟨hnodup.sublist h.freshPaths, hnodup.sublist h.modifiedPaths, ?_⟩
      rintro path hfresh _ hmodified rfl
      obtain ⟨item, hitem, rfl⟩ := mem_map.mp hfresh
      obtain ⟨item', hitem', hpath'⟩ := mem_map.mp hmodified
      obtain ⟨-, current, target, h₁, h₂, hc, -⟩ := h.modified item' hitem'
      have hnone := (h.fresh item hitem).1
      rw [← hpath', hc.entry] at hnone
      cases hnone
    · rintro path hun _ hdel rfl
      obtain ⟨item, hitem, rfl⟩ := mem_map.mp hun
      obtain ⟨item', hitem', hpath'⟩ := mem_map.mp hdel
      exact ((mem_toUnapply hkeyed h).mp hitem).2 (hpath' ▸ hpath item' hitem')

end DdTrace.RemoteConfig
