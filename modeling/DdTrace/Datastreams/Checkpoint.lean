import DdTrace.Datastreams.Pathway

/-!
# Checkpoints of a pathway

`setCheckpoint` of `datastreams/processor.js` continues the pathway of a context.  The parent of a
checkpoint is the context's hash, unless the direction of the last checkpoint is repeated: then it
is the hash the context carries from the closest checkpoint of the opposite direction, so that a
loop of one direction does not lengthen the pathway, and where that is the entry hash the pathway
starts anew.

The specification keeps the `Trail` of a context: the context it was decoded from, if any, and the
checkpoints made since.  `opposite` is the most recent checkpoint of another direction, or what the
trail began with.  `linkedStore_step` says that the fields of a context carry just that, with one
exception: `ctx.closestOppositeDirectionEdgeStart || nowNs` takes a start of 0 for none.

* `rightCheckpoint_iff`: parent and pathway start are right at every checkpoint of every run.
* `follows_of_run`: so is the edge latency, where no direction is repeated twice after an edge that
  started at 0; with a clock that does not read 0 that condition is exact.
* `not_follows`: a decoded context with an edge start of 0, and three checkpoints of one direction.
-/

namespace DdTrace.Datastreams

open Library List Option

/-- `ENTRY_PARENT_HASH`, compared as an object. -/
def ENTRY_PARENT_HASH : Buf := ⟨0, List.replicate 8 0⟩

/-- What a context carries from the checkpoint it was made by. -/
structure Previous where
  direction : Str
  closestOppositeDirectionHash : Buf
  closestOppositeDirectionEdgeStart : ℕ
  deriving DecidableEq

/-- A pathway context; one that was decoded has no previous checkpoint. -/
structure Context where
  hash : Buf
  pathwayStartNs : ℕ
  edgeStartNs : ℕ
  previous : Option Previous
  deriving DecidableEq

/-- The object that is recorded. -/
structure Checkpoint where
  currentTimestamp : ℕ
  parentHash : Buf
  hash : Buf
  edgeTags : List Str
  edgeLatencyNs : ℤ
  pathwayLatencyNs : ℤ
  payloadSize : ℕ
  deriving DecidableEq

/-- The service and environment of a processor. -/
structure Identity where
  service : Str
  env : Str
  deriving DecidableEq

/-- The arguments of `setCheckpoint`, with its clock and propagation hash: the edge tags are the
direction and the others. -/
structure CheckpointCall where
  direction : Str
  tags : List Str
  nowNs : ℕ
  propagationHash : Option ℕ
  payloadSize : ℕ
  pathwayContextSize : ℕ
  deriving DecidableEq

/-- A number that is truthy, or else another one. -/
def orElseNumber (n m : ℕ) : ℕ := if n = 0 then m else n

/-- The values `setCheckpoint` takes from its context before it computes the hash. -/
structure Links where
  pathwayStartNs : ℕ
  edgeStartNs : ℕ
  parentHash : Buf
  closestOppositeDirectionHash : Buf
  closestOppositeDirectionEdgeStart : ℕ
  deriving DecidableEq

/-- The part of `setCheckpoint` that reads the context. -/
def links (direction : Str) (nowNs : ℕ) : Option Context → Links
  | none => ⟨nowNs, nowNs, ENTRY_PARENT_HASH, ENTRY_PARENT_HASH, nowNs⟩
  | some ctx =>
    match ctx.previous with
    | none =>
      -- no previous direction is equal to the one at hand
      ⟨ctx.pathwayStartNs, ctx.edgeStartNs, ctx.hash, ctx.hash, ctx.edgeStartNs⟩
    | some previous =>
      if direction = previous.direction then
        let parentHash := previous.closestOppositeDirectionHash
        let closestOppositeDirectionEdgeStart :=
          orElseNumber previous.closestOppositeDirectionEdgeStart nowNs
        if parentHash.ref = ENTRY_PARENT_HASH.ref then
          ⟨nowNs, nowNs, parentHash, parentHash, closestOppositeDirectionEdgeStart⟩
        else
          ⟨ctx.pathwayStartNs, previous.closestOppositeDirectionEdgeStart, parentHash, parentHash,
            closestOppositeDirectionEdgeStart⟩
      else ⟨ctx.pathwayStartNs, ctx.edgeStartNs, ctx.hash, ctx.hash, ctx.edgeStartNs⟩

/-- `setCheckpoint` up to the recording: the checkpoint, the context for what follows, and the
cache.  `computeHash` sorts the edge tags in place. -/
def setCheckpoint (sha : HashFunction) (identity : Identity) (cache : Cache) (call : CheckpointCall)
    (ctx : Option Context) : Checkpoint × Context × Cache :=
  let l := links call.direction call.nowNs ctx
  let edgeTags := call.direction :: call.tags
  let (hash, cache) := computeHash sha cache
    ⟨identity.service, identity.env, edgeTags, l.parentHash.bytes, call.propagationHash⟩
  let context : Context :=
    { hash := hash
      pathwayStartNs := l.pathwayStartNs
      edgeStartNs := call.nowNs
      previous := some ⟨call.direction, l.closestOppositeDirectionHash,
        l.closestOppositeDirectionEdgeStart⟩ }
  let payloadSize :=
    if call.direction = lit "direction:out" then call.payloadSize + call.pathwayContextSize
    else call.payloadSize
  let checkpoint : Checkpoint :=
    { currentTimestamp := call.nowNs
      parentHash := l.parentHash
      hash := hash
      edgeTags := sortTags edgeTags
      edgeLatencyNs := call.nowNs - l.edgeStartNs
      pathwayLatencyNs := call.nowNs - l.pathwayStartNs
      payloadSize := payloadSize }
  (checkpoint, context, cache)

/-! ## Runs -/

/-- What is decoded from a carrier: a hash and the two starts. -/
structure Remote where
  hash : List UInt8
  pathwayStartNs : ℕ
  edgeStartNs : ℕ
  deriving DecidableEq

/-- A checkpoint that was made. -/
structure Mark where
  direction : Str
  parentHash : Buf
  hash : Buf
  nowNs : ℕ
  deriving DecidableEq

/-- The context a pathway was decoded from, its hash with its edge start, and the checkpoints made
since, the last one first. -/
structure Trail where
  origin : Option (Buf × ℕ)
  marks : List Mark
  deriving DecidableEq

/-- **The most recent checkpoint of another direction**, or what the trail began with: its hash and
the time the edge from it started. -/
def Trail.opposite (t : Trail) (direction : Str) : Option (Buf × ℕ) :=
  match t.marks.find? fun m => m.direction ≠ direction with
  | some m => some (m.hash, m.nowNs)
  | none => t.origin

/-- The store that holds the context, with its trail. -/
structure Store where
  cache : Cache
  ctx : Option Context
  trail : Trail

/-- A checkpoint on the context at hand, or a context that takes its place. -/
inductive PathwayEvent
  | checkpoint (call : CheckpointCall)
  | decoded (remote : Option Remote)
  deriving DecidableEq

namespace Store

def start : Store := ⟨.empty, none, ⟨none, []⟩⟩

def step (sha : HashFunction) (identity : Identity) (s : Store) : PathwayEvent → Option Store
  | .checkpoint call =>
    let (checkpoint, ctx, cache) := setCheckpoint sha identity s.cache call s.ctx
    some
      { cache := cache
        ctx := some ctx
        trail := { s.trail with
          marks := ⟨call.direction, checkpoint.parentHash, checkpoint.hash, call.nowNs⟩ ::
            s.trail.marks } }
  | .decoded none => some { s with ctx := none, trail := ⟨none, []⟩ }
  | .decoded (some r) =>
    let hash : Buf := ⟨s.cache.next, r.hash⟩
    some
      { cache := { s.cache with next := s.cache.next + 1 }
        ctx := some ⟨hash, r.pathwayStartNs, r.edgeStartNs, none⟩
        trail := ⟨some (hash, r.edgeStartNs), []⟩ }

end Store

/-- **A checkpoint continues its pathway**: its parent is the most recent checkpoint of another
direction, or the decoded hash, or the entry hash; a repeated direction keeps the parent; the
pathway starts anew just where the parent is the entry hash; and the edge latency is measured from
the parent. -/
structure RightCheckpoint (sha : HashFunction) (identity : Identity) (s : Store)
    (call : CheckpointCall) : Prop where
  parent : (setCheckpoint sha identity s.cache call s.ctx).1.parentHash =
    ((s.trail.opposite call.direction).map Prod.fst).getD ENTRY_PARENT_HASH
  repeated : ∀ m, s.trail.marks.head? = some m → m.direction = call.direction →
    (setCheckpoint sha identity s.cache call s.ctx).1.parentHash = m.parentHash
  restarts : s.trail.opposite call.direction = none →
    (setCheckpoint sha identity s.cache call s.ctx).2.1.pathwayStartNs = call.nowNs
  continues : s.trail.opposite call.direction ≠ none → ∀ ctx, s.ctx = some ctx →
    (setCheckpoint sha identity s.cache call s.ctx).2.1.pathwayStartNs = ctx.pathwayStartNs
  edgeLatency : (setCheckpoint sha identity s.cache call s.ctx).1.edgeLatencyNs =
    call.nowNs - (((s.trail.opposite call.direction).map Prod.snd).getD call.nowNs : ℕ)

/-- Every checkpoint of a run continues its pathway. -/
def Follows (sha : HashFunction) (identity : Identity) (s : Store) : PathwayEvent → Prop
  | .checkpoint call => RightCheckpoint sha identity s call
  | .decoded _ => True

/-- No checkpoint repeats a direction for the second time after an edge that started at 0. -/
def StartsLate (s : Store) : PathwayEvent → Prop
  | .checkpoint call => ∀ m m' rest h, s.trail.marks = m :: m' :: rest →
    m.direction = call.direction → m'.direction = call.direction →
      s.trail.opposite call.direction ≠ some (h, 0)
  | .decoded _ => True

/-! ## What the fields of a context carry -/

variable {t : Trail} {direction : Str} {ctx : Option Context} {s : Store} {o : Buf × ℕ}
  {e : PathwayEvent}

theorem opposite_cons_of_ne (origin : Option (Buf × ℕ)) {m : Mark} (marks : List Mark)
    (h : m.direction ≠ direction) :
    Trail.opposite ⟨origin, m :: marks⟩ direction = some (m.hash, m.nowNs) := by
  have hfind : (m :: marks).find? (fun m => m.direction ≠ direction) = some m :=
    find?_cons_of_pos (decide_eq_true h)
  rw [Trail.opposite, hfind]

theorem opposite_cons_of_eq {origin : Option (Buf × ℕ)} {m : Mark} {marks : List Mark}
    (h : m.direction = direction) :
    Trail.opposite ⟨origin, m :: marks⟩ direction = Trail.opposite ⟨origin, marks⟩ direction := by
  have hfind : (m :: marks).find? (fun m => m.direction ≠ direction) =
      marks.find? fun m => m.direction ≠ direction :=
    find?_cons_of_neg fun hne => of_decide_eq_true hne h
  rw [Trail.opposite, hfind, Trail.opposite]

/-- The hash of an opposite as the parent of a checkpoint. -/
def parentOf (opposite : Option (Buf × ℕ)) : Buf :=
  (opposite.map Prod.fst).getD ENTRY_PARENT_HASH

/-- No hash of a trail is the entry hash. -/
structure Trail.Proper (t : Trail) : Prop where
  origin : ∀ o ∈ t.origin, o.1.ref ≠ ENTRY_PARENT_HASH.ref
  marks : ∀ m ∈ t.marks, m.hash.ref ≠ ENTRY_PARENT_HASH.ref

theorem Trail.Proper.opposite (h : t.Proper) (ho : t.opposite direction = some o) :
    o.1.ref ≠ ENTRY_PARENT_HASH.ref := by
  unfold Trail.opposite at ho
  split at ho
  · next m hm =>
    rw [← some.inj ho]
    exact h.marks m (mem_of_find?_eq_some hm)
  · exact h.origin o ho

/-- Whether the last checkpoint repeated the direction of the one before. -/
def Repeated (marks : List Mark) : Prop :=
  ∃ m m' rest, marks = m :: m' :: rest ∧ m'.direction = m.direction

/-- **A context carries the end of its trail.**  An edge start of 0 of the opposite direction is
lost once the direction is repeated: a time of the clock takes its place. -/
inductive Linked : Option Context → Trail → Prop
  | entry : Linked none ⟨none, []⟩
  | decoded (hash : Buf) (pathwayStartNs edgeStartNs : ℕ) :
    Linked (some ⟨hash, pathwayStartNs, edgeStartNs, none⟩) ⟨some (hash, edgeStartNs), []⟩
  | made (pathwayStartNs closestEdgeStart : ℕ) (origin : Option (Buf × ℕ)) (m : Mark)
    (rest : List Mark)
    (hparent : m.parentHash = parentOf (Trail.opposite ⟨origin, m :: rest⟩ m.direction))
    (hstart : ∀ h t, Trail.opposite ⟨origin, m :: rest⟩ m.direction = some (h, t) →
      (Repeated (m :: rest) → t ≠ 0) → closestEdgeStart = t)
    (hlost : (∀ n ∈ m :: rest, n.nowNs ≠ 0) → Repeated (m :: rest) → closestEdgeStart ≠ 0) :
    Linked (some ⟨m.hash, pathwayStartNs, m.nowNs, some ⟨m.direction, m.parentHash,
      closestEdgeStart⟩⟩) ⟨origin, m :: rest⟩

/-- What `links` takes from a context is what its trail says. -/
structure LinksOf (t : Trail) (direction : Str) (nowNs : ℕ) (ctx : Option Context) : Prop where
  parent : (links direction nowNs ctx).parentHash = parentOf (t.opposite direction)
  carried : (links direction nowNs ctx).closestOppositeDirectionHash =
    (links direction nowNs ctx).parentHash
  restarts : t.opposite direction = none → (links direction nowNs ctx).pathwayStartNs = nowNs ∧
    (links direction nowNs ctx).edgeStartNs = nowNs
  continues : t.opposite direction ≠ none → ∀ c, ctx = some c →
    (links direction nowNs ctx).pathwayStartNs = c.pathwayStartNs

theorem linksOf (h : Linked ctx t) (hproper : t.Proper)
    (direction : Str) (nowNs : ℕ) : LinksOf t direction nowNs ctx := by
  cases h with
  | entry => exact ⟨rfl, rfl, fun _ => ⟨rfl, rfl⟩, fun hne => absurd rfl hne⟩
  | decoded hash pathwayStartNs edgeStartNs =>
    refine ⟨rfl, rfl, fun hnone => (by cases hnone), fun _ c hc => ?_⟩
    rw [← some.inj hc]
    rfl
  | made pathwayStartNs closestEdgeStart origin m rest hparent hstart hlost =>
    by_cases hd : direction = m.direction
    · subst hd
      cases hopp : Trail.opposite ⟨origin, m :: rest⟩ m.direction with
      | none =>
        have hentry : m.parentHash.ref = ENTRY_PARENT_HASH.ref := by rw [hparent, hopp]; rfl
        have hlinks : links m.direction nowNs (some ⟨m.hash, pathwayStartNs, m.nowNs,
            some ⟨m.direction, m.parentHash, closestEdgeStart⟩⟩) =
            ⟨nowNs, nowNs, m.parentHash, m.parentHash, orElseNumber closestEdgeStart nowNs⟩ := by
          rw [links]
          dsimp only
          rw [if_pos rfl, if_pos hentry]
        constructor
        · rw [hlinks, hparent]
        · rw [hlinks]
        · exact fun _ => by rw [hlinks]; exact ⟨rfl, rfl⟩
        · exact fun hne => absurd hopp hne
      | some o =>
        have hother : m.parentHash.ref ≠ ENTRY_PARENT_HASH.ref := by
          rw [hparent, hopp]
          exact hproper.opposite hopp
        have hlinks : links m.direction nowNs (some ⟨m.hash, pathwayStartNs, m.nowNs,
            some ⟨m.direction, m.parentHash, closestEdgeStart⟩⟩) =
            ⟨pathwayStartNs, closestEdgeStart, m.parentHash, m.parentHash,
              orElseNumber closestEdgeStart nowNs⟩ := by
          rw [links]
          dsimp only
          rw [if_pos rfl, if_neg hother]
        constructor
        · rw [hlinks, hparent]
        · rw [hlinks]
        · exact fun hnone => absurd (hopp.symm.trans hnone) (by simp)
        · rintro _ c hc
          rw [hlinks, ← some.inj hc]
    · have hlinks : links direction nowNs (some ⟨m.hash, pathwayStartNs, m.nowNs,
          some ⟨m.direction, m.parentHash, closestEdgeStart⟩⟩) =
          ⟨pathwayStartNs, m.nowNs, m.hash, m.hash, m.nowNs⟩ := by
        rw [links]
        dsimp only
        rw [if_neg hd]
      have hopp := opposite_cons_of_ne origin rest (Ne.symm hd)
      constructor
      · rw [hlinks, hopp]
        rfl
      · rw [hlinks]
      · exact fun hnone => absurd (hopp.symm.trans hnone) (by simp)
      · rintro _ c hc
        rw [hlinks, ← some.inj hc]

/-- A checkpoint that would repeat a direction for the second time. -/
def RepeatsTwice (t : Trail) (direction : Str) : Prop :=
  ∃ m m' rest, t.marks = m :: m' :: rest ∧ m.direction = direction ∧ m'.direction = direction

/-- The edge from the opposite checkpoint starts where the trail says, unless that is 0 and the
direction is repeated twice. -/
theorem edgeStart_links (h : Linked ctx t) (hproper : t.Proper)
    (nowNs : ℕ) (ho : t.opposite direction = some o)
    (hlate : RepeatsTwice t direction → o.2 ≠ 0) :
    (links direction nowNs ctx).edgeStartNs = o.2 := by
  cases h with
  | entry => cases ho
  | decoded hash pathwayStartNs edgeStartNs =>
    rw [← some.inj ho]
    rfl
  | made pathwayStartNs closestEdgeStart origin m rest hparent hstart hlost =>
    by_cases hd : direction = m.direction
    · subst hd
      have hother : m.parentHash.ref ≠ ENTRY_PARENT_HASH.ref := by
        rw [hparent, ho]
        exact hproper.opposite ho
      have hclosest : closestEdgeStart = o.2 := by
        refine hstart o.1 o.2 ho fun hrep => hlate ?_
        obtain ⟨n, n', marks, heq, hdir⟩ := hrep
        obtain ⟨rfl, rfl⟩ := List.cons.inj heq
        exact ⟨m, n', marks, rfl, rfl, hdir⟩
      rw [links]
      dsimp only
      rw [if_pos rfl, if_neg hother]
      exact hclosest
    · rw [opposite_cons_of_ne _ _ (Ne.symm hd)] at ho
      rw [links]
      dsimp only
      rw [if_neg hd, ← some.inj ho]

/-- Where the direction is repeated twice after an edge that started at 0, and the clock never read
0, the edge starts elsewhere. -/
theorem edgeStart_links_ne (h : Linked ctx t)
    (hproper : t.Proper) (hclock : ∀ m ∈ t.marks, m.nowNs ≠ 0) {nowNs : ℕ}
    (ho : t.opposite direction = some o) (htwice : RepeatsTwice t direction) :
    (links direction nowNs ctx).edgeStartNs ≠ 0 := by
  obtain ⟨m, m', marks, hmarks, hm, hm'⟩ := htwice
  cases h with
  | entry | decoded hash pathwayStartNs edgeStartNs => cases hmarks
  | made pathwayStartNs closestEdgeStart origin n rest hparent hstart hlost =>
    obtain ⟨rfl, rfl⟩ := List.cons.inj hmarks
    subst hm
    have hother : n.parentHash.ref ≠ ENTRY_PARENT_HASH.ref := by
      rw [hparent, ho]
      exact hproper.opposite ho
    rw [links]
    dsimp only
    rw [if_pos rfl, if_neg hother]
    exact hlost hclock ⟨n, m', marks, rfl, hm'⟩

/-- The last checkpoint of a trail had this direction. -/
def EndsIn (t : Trail) (direction : Str) : Prop :=
  ∃ m rest, t.marks = m :: rest ∧ m.direction = direction

/-- The start that a context carries on is the one its links were made from; where a direction is
repeated, one of 0 is the time at hand. -/
theorem carried_links (h : Linked ctx t) (hproper : t.Proper)
    (direction : Str) (nowNs : ℕ) (ho : t.opposite direction = some o) :
    (EndsIn t direction → (links direction nowNs ctx).closestOppositeDirectionEdgeStart =
      orElseNumber (links direction nowNs ctx).edgeStartNs nowNs) ∧
    (¬EndsIn t direction → (links direction nowNs ctx).closestOppositeDirectionEdgeStart =
      (links direction nowNs ctx).edgeStartNs) := by
  cases h with
  | entry => cases ho
  | decoded hash pathwayStartNs edgeStartNs =>
    refine ⟨fun hend => ?_, fun _ => rfl⟩
    obtain ⟨m, rest, hmarks, _⟩ := hend
    cases hmarks
  | made pathwayStartNs closestEdgeStart origin m rest hparent hstart hlost =>
    by_cases hd : direction = m.direction
    · subst hd
      have hother : m.parentHash.ref ≠ ENTRY_PARENT_HASH.ref := by
        rw [hparent, ho]
        exact hproper.opposite ho
      refine ⟨fun _ => ?_, fun hend => absurd ⟨m, rest, rfl, rfl⟩ hend⟩
      rw [links]
      dsimp only
      rw [if_pos rfl, if_neg hother]
    · refine ⟨fun hend => ?_, fun _ => ?_⟩
      · obtain ⟨n, rest', hmarks, hn⟩ := hend
        rw [(List.cons.inj hmarks).1] at hd
        exact absurd hn.symm hd
      · rw [links]
        dsimp only
        rw [if_neg hd]

theorem orElseNumber_ne_zero {n m : ℕ} (h : m ≠ 0) : orElseNumber n m ≠ 0 := by
  rw [orElseNumber]
  split
  · exact h
  · assumption

/-- Where a direction is repeated, the start that is carried on is not 0. -/
theorem carried_ne_zero (h : Linked ctx t) {nowNs : ℕ} (hnow : nowNs ≠ 0)
    (hend : EndsIn t direction) :
    (links direction nowNs ctx).closestOppositeDirectionEdgeStart ≠ 0 := by
  obtain ⟨m, rest, hmarks, hm⟩ := hend
  cases h with
  | entry | decoded hash pathwayStartNs edgeStartNs => cases hmarks
  | made pathwayStartNs closestEdgeStart origin n rest' hparent hstart hlost =>
    obtain ⟨rfl, rfl⟩ := List.cons.inj hmarks
    rw [links]
    dsimp only
    rw [if_pos hm.symm]
    split
    all_goals exact orElseNumber_ne_zero hnow

/-! ## A step -/

/-- **What holds of a store in every run**: the context carries its trail, and no buffer but the
entry hash is object 0. -/
structure LinkedStore (s : Store) : Prop where
  linked : Linked s.ctx s.trail
  proper : s.trail.Proper
  next : 0 < s.cache.next
  entries : ∀ key e, s.cache.entries.get? key = some e → e.value.ref ≠ ENTRY_PARENT_HASH.ref

theorem linkedStore_start : LinkedStore .start :=
  ⟨.entry, ⟨fun _ h => (by cases h), fun _ h => absurd h not_mem_nil⟩, Nat.one_pos,
    fun key e h => by
      cases h⟩

/-- The hash of a call is a buffer of the cache or a new one. -/
theorem ref_computeHash (sha : HashFunction) {c : Cache} (hnext : 0 < c.next)
    (hentries : ∀ key e, c.entries.get? key = some e → e.value.ref ≠ ENTRY_PARENT_HASH.ref)
    (a : Arguments) :
    (computeHash sha c a).1.ref ≠ ENTRY_PARENT_HASH.ref ∧ 0 < (computeHash sha c a).2.next ∧
      ∀ key e, (computeHash sha c a).2.entries.get? key = some e →
        e.value.ref ≠ ENTRY_PARENT_HASH.ref := by
  rw [computeHash]
  cases hget : c.entries.get? a.key with
  | some e => exact ⟨hentries _ e hget, hnext, hentries⟩
  | none =>
    have hnew : c.next ≠ ENTRY_PARENT_HASH.ref := Nat.pos_iff_ne_zero.mp hnext
    refine ⟨hnew, Nat.succ_pos _, fun key e he => ?_⟩
    rw [OrderedMap.get?_set] at he
    split at he
    · rw [← some.inj he]
      exact hnew
    · exact hentries key e he

theorem repeated_cons_iff {m : Mark} : Repeated (m :: t.marks) ↔ EndsIn t m.direction := by
  constructor
  · rintro ⟨n, n', rest, heq, hdir⟩
    obtain ⟨rfl, hrest⟩ := List.cons.inj heq
    exact ⟨n', rest, hrest, hdir⟩
  · rintro ⟨n', rest, hmarks, hdir⟩
    exact ⟨m, n', rest, by rw [hmarks], hdir⟩

theorem endsIn_of_repeatsTwice (h : RepeatsTwice t direction) :
    EndsIn t direction := by
  obtain ⟨m, m', rest, hmarks, hm, _⟩ := h
  exact ⟨m, m' :: rest, hmarks, hm⟩

/-- The context that a checkpoint makes carries the trail with its mark. -/
theorem linked_made (h : Linked ctx t) (hproper : t.Proper)
    (direction : Str) (nowNs : ℕ) (hash : Buf) :
    Linked (some ⟨hash, (links direction nowNs ctx).pathwayStartNs, nowNs, some ⟨direction,
        (links direction nowNs ctx).closestOppositeDirectionHash,
        (links direction nowNs ctx).closestOppositeDirectionEdgeStart⟩⟩)
      { t with marks := ⟨direction, (links direction nowNs ctx).parentHash, hash, nowNs⟩ ::
        t.marks } := by
  have hl := linksOf h hproper direction nowNs
  have hopp : Trail.opposite { t with marks :=
      ⟨direction, (links direction nowNs ctx).parentHash, hash, nowNs⟩ :: t.marks } direction =
      t.opposite direction := opposite_cons_of_eq rfl
  rw [hl.carried]
  refine .made _ _ t.origin ⟨direction, _, hash, nowNs⟩ t.marks ?_ ?_ ?_
  · exact hl.parent.trans (by rw [hopp])
  · intro o start ho hlate
    rw [hopp] at ho
    have hcarried := carried_links h hproper direction nowNs ho
    have hedge := edgeStart_links h hproper nowNs ho fun htwice =>
      hlate (repeated_cons_iff.mpr (endsIn_of_repeatsTwice htwice))
    by_cases hend : EndsIn t direction
    · have hne : start ≠ 0 := hlate (repeated_cons_iff.mpr hend)
      rw [hcarried.1 hend, hedge, orElseNumber, if_neg hne]
    · rw [hcarried.2 hend, hedge]
  · intro hclock hrep
    exact carried_ne_zero h (hclock _ mem_cons_self) (repeated_cons_iff.mp hrep)

variable {sha : HashFunction} {identity : Identity}

theorem linkedStore_step {s' : Store} (h : LinkedStore s)
    (hstep : s.step sha identity e = some s') : LinkedStore s' := by
  cases e with
  | checkpoint call =>
    have hs' := some.inj hstep
    have href := ref_computeHash sha h.next h.entries
      ⟨identity.service, identity.env, call.direction :: call.tags,
        (links call.direction call.nowNs s.ctx).parentHash.bytes, call.propagationHash⟩
    rw [← hs']
    refine ⟨linked_made h.linked h.proper call.direction call.nowNs _, ⟨h.proper.origin, ?_⟩,
      href.2.1, href.2.2⟩
    intro m hm
    rcases mem_cons.mp hm with rfl | hm
    · exact href.1
    · exact h.proper.marks m hm
  | decoded remote =>
    cases remote with
    | none =>
      rw [← some.inj hstep]
      exact ⟨.entry, ⟨fun _ ho => (by cases ho), fun _ hm => absurd hm not_mem_nil⟩, h.next,
        h.entries⟩
    | some r =>
      rw [← some.inj hstep]
      refine ⟨.decoded _ _ _, ⟨?_, fun _ hm => absurd hm not_mem_nil⟩, Nat.succ_pos _, h.entries⟩
      intro o ho
      rw [← some.inj ho]
      exact Nat.pos_iff_ne_zero.mp h.next

/-- The edge latency is measured from the trail just where the edge start is the trail's. -/
theorem edgeLatency_iff (h : LinkedStore s) (call : CheckpointCall) :
    (setCheckpoint sha identity s.cache call s.ctx).1.edgeLatencyNs =
        call.nowNs - (((s.trail.opposite call.direction).map Prod.snd).getD call.nowNs : ℕ) ↔
      ∀ o, s.trail.opposite call.direction = some o →
        (links call.direction call.nowNs s.ctx).edgeStartNs = o.2 := by
  have hl := linksOf h.linked h.proper call.direction call.nowNs
  show (call.nowNs : ℤ) - ((links call.direction call.nowNs s.ctx).edgeStartNs : ℤ) = _ ↔ _
  cases ho : s.trail.opposite call.direction with
  | none =>
    rw [(hl.restarts ho).2]
    exact ⟨fun _ _ hnone => (by cases hnone), fun _ => rfl⟩
  | some o =>
    constructor
    · rintro heq o' ho'
      rw [← some.inj ho']
      have hsnd : (call.nowNs : ℤ) - ((links call.direction call.nowNs s.ctx).edgeStartNs : ℤ) =
        call.nowNs - (o.2 : ℤ) := heq
      omega
    · intro hedge
      rw [hedge o rfl]
      rfl

/-- **Parent and pathway start are right at every checkpoint**, so it continues its pathway just
where its edge latency is measured from the parent. -/
theorem rightCheckpoint_iff (h : LinkedStore s) (call : CheckpointCall) :
    RightCheckpoint sha identity s call ↔ ∀ o, s.trail.opposite call.direction = some o →
        (links call.direction call.nowNs s.ctx).edgeStartNs = o.2 := by
  have hl := linksOf h.linked h.proper call.direction call.nowNs
  refine ⟨fun hright => (edgeLatency_iff h call).mp hright.edgeLatency, fun hedge => ?_⟩
  refine ⟨hl.parent, ?_, fun hnone => (hl.restarts hnone).1, hl.continues,
    (edgeLatency_iff h call).mpr hedge⟩
  intro m hm hdir
  refine Eq.trans hl.parent ?_
  have hlinked := h.linked
  revert hm hlinked
  generalize s.trail = t
  generalize s.ctx = ctx
  rintro hm hlinked
  cases hlinked with
  | entry => cases hm
  | decoded hash pathwayStartNs edgeStartNs => cases hm
  | made pathwayStartNs closestEdgeStart origin n rest hparent hstart hlost =>
    rw [head?_cons, Option.some_inj] at hm
    rw [← hm, hparent, hm, hdir]

theorem follows_of_startsLate (h : LinkedStore s) (hlate : StartsLate s e) :
    Follows sha identity s e := by
  cases e with
  | checkpoint call =>
    refine (rightCheckpoint_iff h call).mpr fun o ho => ?_
    refine edgeStart_links h.linked h.proper _ ho fun htwice hzero => ?_
    obtain ⟨m, m', rest, hmarks, hm, hm'⟩ := htwice
    refine hlate m m' rest o.1 hmarks hm hm' ?_
    rw [ho, ← hzero]
  | decoded remote => trivial

theorem startsLate_of_follows (h : LinkedStore s)
    (hclock : ∀ m ∈ s.trail.marks, m.nowNs ≠ 0) (hfollows : Follows sha identity s e) : StartsLate s e := by
  cases e with
  | checkpoint call =>
    intro m m' rest o hmarks hm hm' ho
    have hedge := (rightCheckpoint_iff h call).mp hfollows (o, 0) ho
    exact edgeStart_links_ne h.linked h.proper hclock ho ⟨m, m', rest, hmarks, hm, hm'⟩ hedge
  | decoded remote => trivial

/-! ## Runs of checkpoints and decoded contexts -/

/-- The clock does not read 0. -/
def ClockRuns (_ : Store) : PathwayEvent → Prop
  | .checkpoint call => call.nowNs ≠ 0
  | .decoded _ => True

/-- No checkpoint of a trail was made at 0. -/
theorem clock_step {s' : Store} (h : ∀ m ∈ s.trail.marks, m.nowNs ≠ 0)
    (hclock : ClockRuns s e) (hstep : s.step sha identity e = some s') :
    ∀ m ∈ s'.trail.marks, m.nowNs ≠ 0 := by
  cases e with
  | checkpoint call =>
    rw [← some.inj hstep]
    intro m hm
    rcases mem_cons.mp hm with rfl | hm
    · exact hclock
    · exact h m hm
  | decoded remote =>
    cases remote with
    | none | some r =>
      rw [← some.inj hstep]
      exact fun _ hm => absurd hm not_mem_nil

/-- Every store of a run is linked. -/
theorem linkedStore_run (sha : HashFunction) (identity : Identity) (run : List PathwayEvent) :
    Run.Every (Store.step sha identity) (fun s _ => LinkedStore s) .start run :=
  Run.Every.invariant (C := fun _ _ => True) (fun _ _ _ h _ hstep => linkedStore_step h hstep)
    linkedStore_start (Run.every_of_forall_mem (fun _ _ _ => trivial) _)

/-- **Every checkpoint continues its pathway**, in every run in which no direction is repeated twice
after an edge that started at 0; and where the clock does not read 0, only in these. -/
theorem follows_of_run (sha : HashFunction) (identity : Identity) (run : List PathwayEvent) :
    (Run.Every (Store.step sha identity) StartsLate .start run →
      Run.Every (Store.step sha identity) (Follows sha identity) .start run) ∧
    (Run.Every (Store.step sha identity) ClockRuns .start run →
      Run.Every (Store.step sha identity) (Follows sha identity) .start run →
        Run.Every (Store.step sha identity) StartsLate .start run) := by
  have hlinked := linkedStore_run sha identity run
  constructor
  · intro hlate
    exact (hlinked.and hlate).imp fun s e h => follows_of_startsLate h.1 h.2
  · intro hclock hfollows
    have hmarks := Run.Every.invariant (I := fun s : Store => ∀ m ∈ s.trail.marks, m.nowNs ≠ 0)
      (fun _ _ _ h hC hstep => clock_step h hC hstep) (fun _ hm => absurd hm not_mem_nil)
      hclock
    exact ((hlinked.and hmarks).and hfollows).imp fun s e h =>
      startsLate_of_follows h.1.1 h.1.2 h.2

/-- A checkpoint of a direction at a time. -/
def checkpointAt (direction : Str) (nowNs : ℕ) : PathwayEvent :=
  .checkpoint ⟨direction, [lit "topic:t"], nowNs, none, 0, 0⟩

/-- A service in its environment. -/
def someService : Identity := ⟨lit "svc", lit "prod"⟩

/-- A decoded context, two checkpoints that consume and one that produces. -/
theorem follows_of_run_decoded :
    Run.Every (Store.step Sha256.digest someService) (Follows Sha256.digest someService) .start
      [.decoded (some ⟨[1, 2, 3, 4, 5, 6, 7, 8], 5, 7⟩), checkpointAt (lit "direction:in") 20,
        checkpointAt (lit "direction:in") 30, checkpointAt (lit "direction:out") 40] := by
  refine (follows_of_run Sha256.digest someService _).1 ⟨trivial, fun s₁ h₁ => ?_⟩
  cases h₁
  refine ⟨fun m m' rest o hmarks => (by cases hmarks), fun s₂ h₂ => ?_⟩
  cases h₂
  refine ⟨fun m m' rest o hmarks => (by cases hmarks), fun s₃ h₃ => ?_⟩
  cases h₃
  refine ⟨fun m m' rest o hmarks hm => ?_, fun _ _ => trivial⟩
  cases hmarks
  exact absurd hm (by decide)

/-- **An edge latency measured from another checkpoint**: the decoded context has an edge start of
0, and the third checkpoint that consumes is measured from the second one. -/
theorem not_follows :
    ¬∀ run, Run.Every (Store.step Sha256.digest someService) (Follows Sha256.digest someService)
      .start run := by
  intro h
  have hrun := h [.decoded (some ⟨[1, 2, 3, 4, 5, 6, 7, 8], 5, 0⟩),
    checkpointAt (lit "direction:in") 20, checkpointAt (lit "direction:in") 30,
    checkpointAt (lit "direction:in") 40]
  have hthird := (((hrun.2 _ rfl).2 _ rfl).2 _ rfl).1.edgeLatency
  revert hthird
  decide

end DdTrace.Datastreams
