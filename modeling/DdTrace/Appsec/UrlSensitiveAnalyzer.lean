import DdTrace.Appsec.EvidenceRedaction
import DdTrace.Library.RegExp

/-!
# The secrets of a URL

`sensitive-analyzers/url-sensitive-analyzer.js` finds what is sensitive in a URL: the userinfo of
the authority, and the values of the query and of the fragment.  It is one expression with the flags
`gmi`, `AUTHORITY` or `QUERY_FRAGMENT`, whose matches are taken one after the other until there is
none.  The expression is shared by all the calls, and with the flag `g` so is its `lastIndex`.

A `Url` is a URL of RFC 3986 by its components, and its `secrets` are the userinfo and the values of
the pairs.  `protects_iff` says for which URLs the ranges cover the secrets.

* `lastIndexBehind_eq`: the loop runs until nothing is found, so `lastIndex` is 0 again behind every
  call, and what was analysed before does not matter.
* `exists_of_scans`: from the beginning, or from inside a line, the ranges are sorted and disjoint,
  and what they cover is read off by `Scans`.  Behind the authority this is `textMask`: of each
  chunk between two of the delimiters `?`, `#` and `&` the part behind the first `=`, if the part
  before it is not empty and has no `;`.
* `Url.Clear`: a query may itself have a `?` in it.  In a value it ends the range, and in a key only
  the part behind the last one is taken for the key.
-/

namespace DdTrace.Appsec

open Library List Option
open Library.RegExp

namespace UrlSensitiveAnalyzer

open Regex Str

/-! ## The code -/

/-- `[^@]` -/
def notAt (u : UInt16) : Bool := u != unit '@'

/-- `[^=&;?#]` -/
def keyClass (u : UInt16) : Bool := !includes (lit "=&;?#") u

/-- `[?#&]` -/
def isDelimiter (u : UInt16) : Bool := includes (lit "?#&") u

/-- `^(?:[^:]+:)?//([^@]+)@` with the flag `m`. -/
def AUTHORITY : Regex UInt16 :=
  Regex.seqs [lineStart, .opt (.seq (.plus (.chr fun u => u != unit ':')) (char ':')),
    char '/', char '/', .group 1 (.plus (.chr notAt)), char '@']

/-- `[?#&]([^=&;?#]+)=([^?#&]+)` -/
def QUERY_FRAGMENT : Regex UInt16 :=
  Regex.seqs [.chr isDelimiter, .group 2 (.plus (.chr keyClass)), char '=',
    .group 3 (.plus (.chr fun u => !isDelimiter u))]

def pattern : Regex UInt16 := .alt AUTHORITY QUERY_FRAGMENT

/-- The ranges of a match. -/
def matchRanges (regexResult : Regex.Found UInt16) : List Range :=
  (match regexResult.stop.group? 1 with
    | none => []
    | some userinfo =>
      let stop := regexResult.index + (regexResult.length - 1)
      [⟨stop - userinfo.length, stop, Nat.sub_le _ _⟩]) ++
  (match regexResult.stop.group? 3 with
    | none => []
    | some value =>
      let stop := regexResult.index + regexResult.length
      [⟨stop - value.length, stop, Nat.sub_le _ _⟩])

/-- The loop, with a bound on its turns: the ranges, and `lastIndex` behind it. -/
def loop : ℕ → Str → ℕ → Option (List Range × ℕ)
  | 0, _, _ => none
  | fuel + 1, value, lastIndex =>
    match pattern.exec value lastIndex with
    | none => some ([], 0)
    | some regexResult =>
      (loop fuel value regexResult.lastIndex).map fun rest =>
        (matchRanges regexResult ++ rest.1, rest.2)

/-- `extractSensitiveRanges`, with the `lastIndex` of the expression before and after it. -/
def extractSensitiveRanges (lastIndex : ℕ) (value : Str) : Option (List Range × ℕ) :=
  loop (value.length + 1) value lastIndex

/-- `lastIndex` when these values have been analysed one after the other. -/
def lastIndexBehind (values : List Str) : Option ℕ :=
  values.foldlM (fun lastIndex value => (extractSensitiveRanges lastIndex value).map (·.2)) 0

/-! ## URLs

The grammar of RFC 3986, with a class of characters for each component.  What the grammar says of
the order within a component is left open: a `%` may stand anywhere, the host and the port are one
text, and so on. -/

def isSchemeChar (u : UInt16) : Bool := isWord u && u != unit '_' || includes (lit "+-.") u

def isUnreserved (u : UInt16) : Bool := isWord u || includes (lit "-.~") u

def isSubDelim (u : UInt16) : Bool := includes (lit "!$&'()*+,;=") u

def isRegName (u : UInt16) : Bool := isUnreserved u || isSubDelim u || u == unit '%'

def isUserinfo (u : UInt16) : Bool := isRegName u || u == unit ':'

def isHostPort (u : UInt16) : Bool := isRegName u || includes (lit ":[]") u

def isPchar (u : UInt16) : Bool := isRegName u || includes (lit ":@") u

def isPath (u : UInt16) : Bool := isPchar u || u == unit '/'

def isQuery (u : UInt16) : Bool := isPchar u || includes (lit "/?") u

/-- A part of a query or of a fragment between two `&`. -/
inductive Piece where
  | flag (text : Str)
  | pair (key value : Str)

namespace Piece

def text : Piece → Str
  | .flag text => text
  | .pair key value => key ++ unit '=' :: value

/-- The part before the first `=`, or the whole. -/
def name : Piece → Str
  | .flag text => text
  | .pair key _ => key

/-- The indices of the value, in a piece that begins at `o`. -/
def values (o : ℕ) : Piece → List (ℕ × ℕ)
  | .flag _ => []
  | .pair key value => [(o + key.length + 1, o + key.length + 1 + value.length)]

structure IsValid (p : Piece) : Prop where
  isQuery : ∀ u ∈ p.text, isQuery u = true
  notMem_text : unit '&' ∉ p.text
  notMem_name : unit '=' ∉ p.name

end Piece

/-- A query or a fragment, by its pieces. -/
structure Query where
  first : Piece
  others : List Piece
  valid : ∀ p ∈ first :: others, p.IsValid

namespace Query

def pieces (q : Query) : List Piece := q.first :: q.others

def text (q : Query) : Str := Str.join (unit '&') (q.pieces.map Piece.text)

end Query

/-- The indices of the values of these pieces, the first of which begins at `o`. -/
def valuesFrom : ℕ → List Piece → List (ℕ × ℕ)
  | _, [] => []
  | o, p :: ps => p.values o ++ valuesFrom (o + p.text.length + 1) ps

structure Authority where
  userinfo : Option Str
  hostPort : Str
  isUserinfo_userinfo : ∀ s ∈ userinfo, ∀ u ∈ s, isUserinfo u = true
  isHostPort_hostPort : ∀ u ∈ hostPort, isHostPort u = true

structure Url where
  scheme : Str
  authority : Option Authority
  path : Str
  query : Option Query
  fragment : Option Query
  scheme_ne_nil : scheme ≠ []
  isSchemeChar_scheme : ∀ u ∈ scheme, isSchemeChar u = true
  isPath_path : ∀ u ∈ path, isPath u = true
  path_begins : if authority.isSome then ∀ u ∈ path.head?, u = unit '/' else ¬ lit "//" <+: path

namespace Url

/-- The path, the query and the fragment. -/
def tail (url : Url) : Str :=
  url.path ++ ((url.query.elim [] fun q => unit '?' :: q.text) ++
    url.fragment.elim [] fun f => unit '#' :: f.text)

def text (url : Url) : Str :=
  url.scheme ++ unit ':' :: ((url.authority.elim [] fun a => lit "//" ++
    ((a.userinfo.elim [] fun s => s ++ [unit '@']) ++ a.hostPort)) ++ url.tail)

/-- The index of the path. -/
def pathStart (url : Url) : ℕ := url.text.length - url.tail.length

def queryStart (url : Url) : ℕ := url.pathStart + url.path.length + 1

def fragmentStart (url : Url) : ℕ :=
  url.pathStart + url.path.length + (url.query.elim 0 fun q => 1 + q.text.length) + 1

/-- The indices of the userinfo and of the values. -/
def secrets (url : Url) : List (ℕ × ℕ) :=
  (url.authority.elim [] fun a => a.userinfo.elim [] fun s =>
    [(url.scheme.length + 3, url.scheme.length + 3 + s.length)]) ++
  ((url.query.elim [] fun q => valuesFrom url.queryStart q.pieces) ++
    url.fragment.elim [] fun f => valuesFrom url.fragmentStart f.pieces)

end Url

/-- These ranges cover the indices from one on up to another. -/
def Covers (ranges : List Range) (secret : ℕ × ℕ) : Prop :=
  ∀ i, secret.1 ≤ i → i < secret.2 → covered ranges i = true

/-- What was analysed before does not matter, and the ranges are sorted and disjoint and cover the
secrets. -/
def Protects (previous : List Str) (url : Url) : Prop :=
  ∃ lastIndex ranges, lastIndexBehind previous = some lastIndex ∧
    extractSensitiveRanges lastIndex url.text = some (ranges, 0) ∧
      Evidence.Sorted ranges ∧ ∀ secret ∈ url.secrets, Covers ranges secret

/-! ## Where the values are recognised -/

/-- The part of a key behind its last `?`. -/
def lastPart (key : Str) : Str := (Str.split (unit '?') key).getLastD []

/-- A key that the expression finds. -/
def isRecognised (key : Str) : Bool :=
  !(lastPart key).isEmpty && !includes (lastPart key) (unit ';')

/-- A piece behind one of the delimiters. -/
def Piece.clear : Piece → Bool
  | .flag _ => true
  | .pair key value => value.isEmpty || isRecognised key && !includes value (unit '?')

/-- A piece that begins in what is taken for the userinfo: the value comes before the `@` that ends
it, or the expression finds it behind this `@`. -/
def Piece.clearHidden : Piece → Bool
  | .flag _ => true
  | .pair key value =>
    match Str.cut (unit '@') key with
    | none => !includes value (unit '@')
    | some (_, rest) =>
      value.isEmpty || includes rest (unit '?') && isRecognised rest && !includes value (unit '?')

def clearFrom : Bool → List Piece → Bool
  | _, [] => true
  | false, p :: ps => p.clear && clearFrom false ps
  | true, p :: ps => p.clearHidden && clearFrom (!includes p.text (unit '@')) ps

/-- An authority without userinfo, and an `@` further on: what is between is taken for the
userinfo. -/
def Url.hides (url : Url) : Bool :=
  url.authority.any (fun a => a.userinfo.isNone) && includes url.tail (unit '@')

def Url.Clear (url : Url) : Prop :=
  let inQuery := url.hides && !includes url.path (unit '@')
  let inFragment := inQuery && !(url.query.any fun q => includes q.text (unit '@'))
  (∀ q ∈ url.query, clearFrom inQuery q.pieces = true) ∧
    ∀ f ∈ url.fragment, clearFrom inFragment f.pieces = true

/-! ## Ranges and masks -/

/-- What ranges from an index on cover, character by character. -/
structure Marks (ranges : List Range) (o : ℕ) (mask : List Bool) : Prop where
  sorted : Evidence.Sorted ranges
  within : ∀ r ∈ ranges, o ≤ r.start ∧ r.stop ≤ o + mask.length
  covered_iff : ∀ i, covered ranges i = true ↔ o ≤ i ∧ mask[i - o]? = some true

theorem covered_append {ranges ranges' : List Range} {i : ℕ} :
    covered (ranges ++ ranges') i = true ↔ covered ranges i = true ∨ covered ranges' i = true := by
  rw [covered, any_append, Bool.or_eq_true]
  rfl

namespace Marks

variable {ranges ranges' : List Range} {o n : ℕ} {mask mask' : List Bool}

theorem nil (o n : ℕ) : Marks [] o (List.replicate n false) where
  sorted := List.Pairwise.nil
  within := fun _ h => (not_mem_nil h).elim
  covered_iff := fun i => by simp [covered, getElem?_replicate]

theorem singleton (o a b : ℕ) (h : o + a ≤ o + a + b) :
    Marks [⟨o + a, o + a + b, h⟩] o (List.replicate a false ++ List.replicate b true) where
  sorted := pairwise_singleton _ _
  within := by
    intro r hr
    rw [mem_singleton] at hr
    rw [hr, length_append, length_replicate, length_replicate]
    exact ⟨Nat.le_add_right _ _, (Nat.add_assoc _ _ _).le⟩
  covered_iff := by
    intro i
    have hmem : covered [⟨o + a, o + a + b, h⟩] i = true ↔ o + a ≤ i ∧ i < o + a + b := by
      simp [covered, Range.mem]
    rw [hmem]
    by_cases hi : i - o < a
    · rw [getElem?_append_left (by rwa [length_replicate]), getElem?_replicate]
      simp
      omega
    · rw [getElem?_append_right (by rw [length_replicate]; omega), getElem?_replicate]
      simp
      omega

theorem append (h : Marks ranges o mask) (h' : Marks ranges' (o + mask.length) mask') :
    Marks (ranges ++ ranges') o (mask ++ mask') where
  sorted := by
    refine pairwise_append.mpr ⟨h.sorted, h'.sorted, fun r hr r' hr' => ?_⟩
    exact (h.within r hr).2.trans (h'.within r' hr').1
  within := by
    intro r hr
    rw [length_append]
    rcases mem_append.mp hr with hr | hr
    · exact ⟨(h.within r hr).1, (h.within r hr).2.trans (by omega)⟩
    · exact ⟨(Nat.le_add_right _ _).trans (h'.within r hr).1, (h'.within r hr).2.trans (by omega)⟩
  covered_iff := by
    intro i
    rw [covered_append, h.covered_iff, h'.covered_iff]
    by_cases hi : i - o < mask.length
    · rw [getElem?_append_left hi]
      constructor
      · rintro (h | ⟨hle, -⟩)
        · exact h
        · omega
      · exact .inl
    · rw [getElem?_append_right (Nat.le_of_not_lt hi), getElem?_eq_none
        (Nat.le_of_not_lt hi), Nat.sub_sub]
      constructor
      · rintro (⟨-, h⟩ | ⟨hle, h⟩)
        · cases h
        · exact ⟨by omega, h⟩
      · rintro ⟨hle, h⟩
        exact .inr ⟨by omega, h⟩

end Marks

/-! ## One attempt of the expression -/

variable {before rest k v w : Str} {d : UInt16}

/-- A text with no delimiter. -/
def Chunk (s : Str) : Prop := ∀ u ∈ s, isDelimiter u = false

/-- What may come behind a chunk: a delimiter or nothing. -/
def Stops (rest : Str) : Prop := ∀ u ∈ rest.head?, isDelimiter u = true

variable {mask : List Bool} {c t : Str} {u : UInt16} {m : Regex.Found UInt16}

theorem ne_equals_of_isDelimiter (h : isDelimiter u = true) : u ≠ unit '=' := by
  rintro rfl
  revert h
  decide

theorem keyClass_of_isDelimiter (h : isDelimiter u = true) :
    keyClass u = false := by
  rw [isDelimiter, includes_eq_true_iff] at h
  exact forall_mem_of_all (P := fun u => keyClass u = false) (by decide) _ h

theorem keyClass_iff : keyClass u = true ↔
    isDelimiter u = false ∧ u ≠ unit '=' ∧ u ≠ unit ';' := by
  have hlist : lit "=&;?#" = [unit '=', unit '&', unit ';', unit '?', unit '#'] := by decide
  have hlist' : lit "?#&" = [unit '?', unit '#', unit '&'] := by decide
  rw [keyClass, isDelimiter, Bool.not_eq_true', includes_eq_false_iff, includes_eq_false_iff,
    hlist, hlist']
  simp only [mem_cons, not_mem_nil, not_or]
  tauto

theorem run_QUERY_FRAGMENT_cons (hd : isDelimiter d = false) :
    Regex.run QUERY_FRAGMENT some ⟨before, d :: rest, []⟩ = none := by
  rw [QUERY_FRAGMENT, run_seqs_cons, run_chr_cons, if_neg (by simp [hd])]

/-- A key and what is behind it. -/
theorem run_key (hd : isDelimiter d = true) (hk : ∀ u ∈ k, keyClass u = true) (hne : k ≠ [])
    (hrest : ∀ u ∈ rest.head?, keyClass u = false) :
    Regex.run QUERY_FRAGMENT some ⟨before, d :: (k ++ rest), []⟩ =
      Regex.run (Regex.seqs [char '=', .group 3 (.plus (.chr fun u => !isDelimiter u))]) some
        ⟨k.reverse ++ d :: before, rest, [(2, k)]⟩ := by
  rw [QUERY_FRAGMENT, run_seqs_cons, run_chr_cons, if_pos hd, run_seqs_cons,
    run_group_plus_chr_full hk hne hrest]
  intro u a v hu _
  have ha : a ≠ unit '=' := (keyClass_iff.mp (hk a (by rw [hu]; simp))).2.1
  rw [run_seqs_cons, char, cons_append, run_chr_cons, if_neg (by simp [ha])]

variable (before) in
/-- A key and a value. -/
theorem run_pair (hd : isDelimiter d = true) (hk : ∀ u ∈ k, keyClass u = true) (hkne : k ≠ [])
    (hv : Chunk v) (hvne : v ≠ []) (hrest : Stops rest) :
    Regex.run QUERY_FRAGMENT some ⟨before, d :: (k ++ unit '=' :: (v ++ rest)), []⟩ =
      some ⟨v.reverse ++ unit '=' :: (k.reverse ++ d :: before), rest, [(3, v), (2, k)]⟩ := by
  have hstop : ∀ u ∈ rest.head?, (!isDelimiter u) = false := fun u hu => by
    rw [hrest u hu]
    rfl
  have hequals : ∀ u ∈ (unit '=' :: (v ++ rest)).head?, keyClass u = false := by
    rintro u ⟨⟩
    decide
  rw [run_key hd hk hkne hequals, run_seqs_cons, char, run_chr_cons, run_seqs_cons]
  exact run_group_plus_chr_longest (fun u hu => by rw [hv u hu]; rfl) hvne hstop rfl

/-- A chunk that the expression recognises. -/
def chunkCut (c : Str) : Option (Str × Str) :=
  (Str.cut (unit '=') c).filter fun p => !p.1.isEmpty && !includes p.1 (unit ';') && !p.2.isEmpty

/-- A chunk behind a delimiter that is not recognised. -/
theorem run_chunk_eq_none (hd : isDelimiter d = true) (hc : Chunk c)
    (hrest : Stops rest) (hcut : chunkCut c = none) :
    Regex.run QUERY_FRAGMENT some ⟨before, d :: (c ++ rest), []⟩ = none := by
  have hrest' : ∀ u ∈ rest.head?, keyClass u = false := fun u hu =>
    keyClass_of_isDelimiter (hrest u hu)
  obtain ⟨k, r, hk, hr, rfl⟩ : ∃ k r, (∀ u ∈ k, keyClass u = true) ∧
      (∀ u ∈ r.head?, keyClass u = false) ∧ c = k ++ r := by
    refine ⟨c.takeWhile keyClass, c.dropWhile keyClass,
      fun u hu => mem_takeWhile_imp hu, fun u hu => ?_,
      takeWhile_append_dropWhile.symm⟩
    have h := head?_dropWhile_not keyClass c
    rw [mem_def.mp hu] at h
    exact h
  have hstop : ∀ u ∈ (r ++ rest).head?, keyClass u = false := by
    cases r with
    | nil => exact hrest'
    | cons u r => exact hr
  rw [append_assoc]
  by_cases hkne : k = []
  · rw [hkne, List.nil_append, QUERY_FRAGMENT, run_seqs_cons, run_chr_cons,
      if_pos hd, run_seqs_cons, run_group_plus_chr_stop hstop]
  · rw [run_key hd hk hkne hstop, run_seqs_cons, char]
    rcases r with _ | ⟨u, v⟩
    · rcases rest with _ | ⟨u, rest⟩
      · exact run_chr_nil ..
      · rw [List.nil_append, run_chr_cons, if_neg]
        simpa using ne_equals_of_isDelimiter (hrest u rfl)
    · rw [cons_append, run_chr_cons]
      by_cases hu : u = unit '='
      · have hnotMem : unit '=' ∉ k := fun h => (keyClass_iff.mp (hk _ h)).2.1 rfl
        have hsemicolon : unit ';' ∉ k := fun h => (keyClass_iff.mp (hk _ h)).2.2 rfl
        have hv : v = [] := by
          rw [hu, chunkCut, cut_append hnotMem] at hcut
          simpa [Option.filter, hkne, hsemicolon] using hcut
        rw [hu, hv, if_pos (beq_self_eq_true _), run_seqs_cons, run_group_plus_chr_stop]
        intro u hu
        rw [hrest u hu]
        rfl
      · rw [if_neg (by simpa using hu)]

/-- Behind the beginning of a text of one line only a value is found. -/
theorem head?_ends_inside (h : before.head?.all isLineTerminator = false) (rest : Str) :
    (pattern.ends ⟨before, rest, []⟩).head? = Regex.run QUERY_FRAGMENT some ⟨before, rest, []⟩ := by
  have hauthority : Regex.run AUTHORITY some ⟨before, rest, []⟩ = none := by
    rw [AUTHORITY, run_seqs_cons, lineStart, run_look, if_neg (Bool.eq_false_iff.mp h)]
  rw [head?_ends, pattern, run_alt, hauthority, none_or]

/-! ## The loop -/

/-- What the loop makes of the text behind a cursor. -/
def Scans (before rest : Str) (mask : List Bool) : Prop :=
  ∀ fuel value lastIndex, rest.length < fuel → value = before.reverse ++ rest →
    pattern.exec value lastIndex = Regex.search pattern before rest →
      ∃ ranges, loop fuel value lastIndex = some (ranges, 0) ∧ Marks ranges before.length mask

theorem Scans.of_none (h : Regex.search pattern before rest = none) (n : ℕ) :
    Scans before rest (List.replicate n false) := by
  intro fuel value lastIndex hfuel _ hexec
  obtain ⟨fuel, rfl⟩ := Nat.exists_eq_add_of_lt hfuel
  refine ⟨[], ?_, Marks.nil _ _⟩
  rw [loop, hexec, h]

theorem Scans.skip (h : Scans (w.reverse ++ before) rest mask)
    (hsearch : Regex.search pattern before (w ++ rest) =
      Regex.search pattern (w.reverse ++ before) rest) :
    Scans before (w ++ rest) (List.replicate w.length false ++ mask) := by
  intro fuel value lastIndex hfuel hvalue hexec
  rw [length_append] at hfuel
  obtain ⟨ranges, hloop, hmarks⟩ := h fuel value lastIndex (by omega)
    (by rw [hvalue, reverse_append, reverse_reverse, append_assoc])
    (hexec.trans hsearch)
  refine ⟨ranges, hloop, ?_⟩
  rw [length_append, length_reverse, Nat.add_comm] at hmarks
  have h := (Marks.nil before.length w.length).append (by rwa [length_replicate])
  exact h

theorem Scans.of_found {mask' : List Bool}
    (hsearch : Regex.search pattern before (w ++ rest) = some m)
    (hstop : m.stop.before = w.reverse ++ before) (hw : w ≠ [])
    (hmarks : Marks (matchRanges m) before.length mask) (hlength : mask.length = w.length)
    (h : Scans (w.reverse ++ before) rest mask') : Scans before (w ++ rest) (mask ++ mask') := by
  intro fuel value lastIndex hfuel hvalue hexec
  rw [length_append] at hfuel
  have hpos := length_pos_of_ne_nil hw
  obtain ⟨fuel, rfl⟩ := Nat.exists_eq_add_of_lt hfuel
  have hvalue' : value = (w.reverse ++ before).reverse ++ rest := by
    rw [hvalue, reverse_append, reverse_reverse, append_assoc]
  have hlast : pattern.exec value m.lastIndex =
      Regex.search pattern (w.reverse ++ before) rest := by
    rw [Regex.Found.lastIndex, hstop, hvalue', exec_eq_search]
  obtain ⟨ranges, hloop, hmarks'⟩ := h (w.length + rest.length + fuel) value m.lastIndex
    (by omega) hvalue' hlast
  refine ⟨matchRanges m ++ ranges, ?_, ?_⟩
  · rw [loop, hexec, hsearch]
    simp only [hloop, map_some]
  · refine hmarks.append ?_
    rw [length_append, length_reverse, Nat.add_comm] at hmarks'
    rwa [hlength]

/-! ## The masks -/

/-- What is covered of a chunk behind a delimiter. -/
def chunkMask (c : Str) : List Bool :=
  match chunkCut c with
  | none => List.replicate c.length false
  | some (k, v) => List.replicate (k.length + 1) false ++ List.replicate v.length true

/-- What is covered of a delimiter and the text behind it. -/
def delimiterMask (s : Str) : List Bool :=
  (s.splitOnP isDelimiter).flatMap fun c => false :: chunkMask c

/-- What is covered of a text that is not behind a delimiter. -/
def textMask (s : Str) : List Bool :=
  List.replicate (s.splitOnP isDelimiter).headI.length false ++
    (s.splitOnP isDelimiter).tail.flatMap fun c => false :: chunkMask c

theorem splitOnP_of_chunk (hc : Chunk c) : c.splitOnP isDelimiter = [c] :=
  splitOnP_eq_singleton hc

theorem delimiterMask_of_chunk (hc : Chunk c) :
    delimiterMask c = false :: chunkMask c := by
  rw [delimiterMask, splitOnP_of_chunk hc, flatMap_singleton]

theorem delimiterMask_append (s t : Str) (hd : isDelimiter d = true) :
    delimiterMask (s ++ d :: t) = delimiterMask s ++ delimiterMask t := by
  rw [delimiterMask, splitOnP_append_cons s t hd, flatMap_append]
  rfl

theorem textMask_of_chunk (hc : Chunk c) :
    textMask c = List.replicate c.length false := by
  rw [textMask, splitOnP_of_chunk hc]
  exact append_nil _

theorem textMask_append (s t : Str) (hd : isDelimiter d = true) :
    textMask (s ++ d :: t) = textMask s ++ delimiterMask t := by
  obtain ⟨c, l, hs⟩ := exists_cons_of_ne_nil (splitOnP_ne_nil isDelimiter s)
  rw [textMask, splitOnP_append_cons s t hd, textMask, hs, cons_append, tail_cons, flatMap_append, append_assoc]
  rfl

/-- A text is a chunk, or a chunk with a delimiter and another text behind it. -/
theorem chunk_or (s : Str) :
    Chunk s ∨ ∃ c d t, s = c ++ d :: t ∧ Chunk c ∧ isDelimiter d = true := by
  induction s with
  | nil => exact .inl fun _ h => (not_mem_nil h).elim
  | cons u s ih =>
    rcases hu : isDelimiter u with _ | _
    · rcases ih with h | ⟨c, d, t, rfl, hc, hd⟩
      · exact .inl (forall_mem_cons.mpr ⟨hu, h⟩)
      · exact .inr ⟨u :: c, d, t, rfl, forall_mem_cons.mpr ⟨hu, hc⟩, hd⟩
    · exact .inr ⟨[], u, s, rfl, fun _ h => (not_mem_nil h).elim, hu⟩

/-! ## The text behind a cursor -/

/-- A text without line terminators. -/
def OneLine (s : Str) : Prop := ∀ u ∈ s, isLineTerminator u = false

/-- A cursor that is not at the beginning of a line. -/
def Inside (before : Str) : Prop := before.head?.all isLineTerminator = false

theorem Inside.append (h : Inside before) (hw : OneLine w) : Inside (w.reverse ++ before) := by
  by_cases hnil : w = []
  · rw [hnil]
    exact h
  · rw [Inside, head?_append_of_ne_nil _ (reverse_ne_nil_iff.mpr hnil),
      head?_reverse, getLast?_eq_some_getLast hnil]
    exact hw _ (getLast_mem hnil)

theorem ends_chunk (h : Inside before) (hd : isDelimiter d = false) (rest : Str) :
    pattern.ends ⟨before, d :: rest, []⟩ = [] := by
  rw [← head?_eq_none_iff, head?_ends_inside h, run_QUERY_FRAGMENT_cons hd]

theorem search_chunk (h : Inside before) (hc : Chunk w) (hw : OneLine w) (rest : Str) :
    Regex.search pattern before (w ++ rest) = Regex.search pattern (w.reverse ++ before) rest := by
  refine search_append fun u u' hu hu' => ?_
  obtain ⟨a, v, rfl⟩ := exists_cons_of_ne_nil hu'
  exact ends_chunk (h.append fun x hx => hw x (by rw [hu]; simp [hx])) (hc a (by rw [hu]; simp)) _

theorem search_nil (h : Inside before) : Regex.search pattern before [] = none := by
  rw [Regex.search, head?_ends_inside h]
  rfl

theorem scans_nil (h : Inside before) : Scans before [] [] :=
  Scans.of_none (search_nil h) 0

theorem length_chunkCut (h : chunkCut c = some (k, v)) :
    c = k ++ unit '=' :: v ∧ unit '=' ∉ k ∧ unit ';' ∉ k ∧ k ≠ [] ∧ v ≠ [] := by
  rw [chunkCut, filter_eq_some_iff] at h
  obtain ⟨hcut, h⟩ := h
  obtain ⟨rfl, hk⟩ := cut_eq_some hcut
  simp only [Bool.and_eq_true, Bool.not_eq_true', isEmpty_eq_false_iff, includes_eq_false_iff] at h
  exact ⟨rfl, hk, h.1.2, h.1.1, h.2⟩

theorem range_eq_range {a b a' b' : ℕ} {h : a ≤ b} {h' : a' ≤ b'} (ha : a = a') (hb : b = b') :
    Range.mk a b h = Range.mk a' b' h' := by
  subst ha hb
  rfl

theorem matchRanges_of_value {a : ℕ} (h₁ : m.stop.group? 1 = none)
    (h₃ : m.stop.group? 3 = some v) (hlength : m.index + m.length = a + v.length) :
    matchRanges m = [⟨a, a + v.length, Nat.le_add_right _ _⟩] := by
  rw [matchRanges, h₁, h₃]
  exact congrArg ([·]) (range_eq_range (by omega) hlength)

theorem matchRanges_of_userinfo {a : ℕ} (h₁ : m.stop.group? 1 = some v)
    (h₃ : m.stop.group? 3 = none) (hlength : m.index + (m.length - 1) = a + v.length) :
    matchRanges m = [⟨a, a + v.length, Nat.le_add_right _ _⟩] := by
  rw [matchRanges, h₁, h₃]
  exact congrArg ([·]) (range_eq_range (by omega) hlength)

/-- A value that is found. -/
theorem scans_pair (hd : isDelimiter d = true) (hinside : Inside before) (hc : Chunk c)
    (hrest : Stops rest) (hcut : chunkCut c = some (k, v)) (h : Scans ((d :: c).reverse ++ before) rest mask) :
    Scans before (d :: (c ++ rest)) (false :: chunkMask c ++ mask) := by
  obtain ⟨rfl, hequals, hsemicolon, hk, hv⟩ := length_chunkCut hcut
  have hkey : ∀ u ∈ k, keyClass u = true := fun u hu => keyClass_iff.mpr
    ⟨hc u (mem_append_left _ hu), fun h => hequals (h ▸ hu), fun h => hsemicolon (h ▸ hu)⟩
  have hvalue : Chunk v := fun u hu => hc u (by simp [hu])
  have hmatch := run_pair before hd hkey hk hvalue hv hrest
  rw [← head?_ends_inside hinside] at hmatch
  have hmask : false :: chunkMask (k ++ unit '=' :: v) =
      List.replicate (k.length + 2) false ++ List.replicate v.length true := by
    rw [chunkMask, hcut]
    rfl
  have htext : d :: (k ++ unit '=' :: v ++ rest) = d :: (k ++ unit '=' :: (v ++ rest)) := by
    rw [append_assoc, cons_append]
  have hsearch := search_of_head? hmatch
  rw [← htext] at hsearch
  rw [hmask]
  refine Scans.of_found (w := d :: (k ++ unit '=' :: v)) hsearch ?_ (cons_ne_nil _ _) ?_ ?_ h
  · simp
  · have hmarks := Marks.singleton before.length (k.length + 2) v.length (Nat.le_add_right _ _)
    rwa [matchRanges_of_value rfl rfl (a := before.length + (k.length + 2))]
    simp only [Regex.Found.length, Regex.Found.lastIndex, length_append,
      length_reverse, length_cons]
    omega
  · simp
    omega

/-- A delimiter and a chunk that is not recognised. -/
theorem scans_skipped (hd : isDelimiter d = true) (hinside : Inside before) (hc : Chunk c)
    (hline : OneLine (d :: c)) (hrest : Stops rest) (hcut : chunkCut c = none)
    (h : Scans ((d :: c).reverse ++ before) rest mask) :
    Scans before (d :: (c ++ rest)) (false :: chunkMask c ++ mask) := by
  have hmask : false :: chunkMask c = List.replicate (d :: c).length false := by
    rw [chunkMask, hcut]
    rfl
  rw [hmask]
  refine Scans.skip (w := d :: c) h ?_
  have hhere : pattern.ends ⟨before, d :: (c ++ rest), []⟩ = [] := by
    rw [← head?_eq_none_iff, head?_ends_inside hinside, run_chunk_eq_none hd hc hrest hcut]
  obtain ⟨hdline, hcline⟩ := forall_mem_cons.mp hline
  have hbehind : Inside (d :: before) := hdline
  rw [cons_append, search_cons hhere, search_chunk hbehind hc hcline, reverse_cons, append_assoc]
  rfl

/-- **A delimiter and the text behind it.** -/
theorem scans_delimiter (hd : isDelimiter d = true) (hinside : Inside before)
    (hline : OneLine (d :: t)) : Scans before (d :: t) (delimiterMask t) := by
  induction hn : t.length using Nat.strongRecOn generalizing before d t with
  | _ n ih =>
    obtain ⟨c, rest, mask, rfl, hc, hrest, hmask, hscans⟩ : ∃ c rest mask, t = c ++ rest ∧
        Chunk c ∧ Stops rest ∧ delimiterMask t = false :: chunkMask c ++ mask ∧
          Scans ((d :: c).reverse ++ before) rest mask := by
      rcases chunk_or t with hc | ⟨c, d', t', rfl, hc, hd'⟩
      · refine ⟨t, [], [], (append_nil t).symm, hc, fun _ h => (by cases h), ?_,
          scans_nil (hinside.append hline)⟩
        rw [delimiterMask_of_chunk hc, append_nil]
      · have hline' : OneLine (d' :: t') := fun u hu =>
          hline u (mem_cons_of_mem _ (mem_append_right _ hu))
        have hcline : OneLine (d :: c) := fun u hu => hline u (by
          rcases mem_cons.mp hu with rfl | hu
          · exact mem_cons_self ..
          · exact mem_cons_of_mem _ (mem_append_left _ hu))
        refine ⟨c, d' :: t', delimiterMask t', rfl, hc, ?_, ?_, ?_⟩
        · rintro u ⟨⟩
          exact hd'
        · rw [delimiterMask_append c t' hd', delimiterMask_of_chunk hc]
        · refine ih t'.length ?_ hd' (hinside.append hcline) hline' rfl
          rw [← hn, length_append, length_cons]
          omega
    rw [hmask]
    have hcline : OneLine (d :: c) := fun u hu => hline u (by
      rcases mem_cons.mp hu with rfl | hu
      · exact mem_cons_self ..
      · exact mem_cons_of_mem _ (mem_append_left _ hu))
    rcases hcut : chunkCut c with _ | ⟨k, v⟩
    · exact scans_skipped hd hinside hc hcline hrest hcut hscans
    · exact scans_pair hd hinside hc hrest hcut hscans

/-- **A text that is not behind a delimiter.** -/
theorem scans_text (hinside : Inside before) (hline : OneLine t) : Scans before t (textMask t) := by
  rcases chunk_or t with hc | ⟨c, d, t, rfl, hc, hd⟩
  · rw [textMask_of_chunk hc]
    refine Scans.of_none ?_ _
    have hsearch := search_chunk hinside hc hline []
    rw [append_nil] at hsearch
    rw [hsearch, search_nil (hinside.append hline)]
  · have hcline : OneLine c := (forall_mem_append.mp hline).1
    rw [textMask_append c t hd, textMask_of_chunk hc]
    refine Scans.skip (scans_delimiter hd (hinside.append hcline) ?_)
      (search_chunk hinside hc hcline _)
    exact (forall_mem_append.mp hline).2

/-! ## The authority -/

variable {scheme g : Str}

/-- The rest of the expression behind the scheme. -/
def slashes : Regex UInt16 :=
  Regex.seqs [char '/', char '/', .group 1 (.plus (.chr notAt)), char '@']

/-- The scheme is taken up to its colon. -/
theorem run_AUTHORITY (hne : scheme ≠ []) (hscheme : ∀ u ∈ scheme, isSchemeChar u = true) :
    Regex.run AUTHORITY some ⟨[], scheme ++ unit ':' :: rest, []⟩ =
      Regex.run slashes some ⟨unit ':' :: scheme.reverse, rest, []⟩ := by
  have hcolon : ∀ u ∈ scheme, (u != unit ':') = true := fun u hu => by
    rw [bne_iff_ne]
    rintro rfl
    exact absurd (hscheme _ hu) (by decide)
  have hstop : ∀ u ∈ (unit ':' :: rest).head?, (u != unit ':') = false := by
    rintro u ⟨⟩
    decide
  have hskipped : Regex.run slashes some ⟨[], scheme ++ unit ':' :: rest, []⟩ = none := by
    obtain ⟨a, s, rfl⟩ := exists_cons_of_ne_nil hne
    have ha : a ≠ unit '/' := by
      rintro rfl
      exact absurd (hscheme _ (mem_cons_self ..)) (by decide)
    rw [slashes, run_seqs_cons, char, cons_append, run_chr_cons, if_neg (by simpa using ha)]
  have htaken : Regex.run (.seq (.plus (.chr fun u => u != unit ':')) (char ':'))
      (Regex.run slashes some) ⟨[], scheme ++ unit ':' :: rest, []⟩ =
        Regex.run slashes some ⟨unit ':' :: scheme.reverse, rest, []⟩ := by
    rw [run_seq, run_plus_chr_full hcolon hne hstop, char, run_chr_cons,
      if_pos (beq_self_eq_true _), append_nil]
    intro u a v hu _
    have ha := hcolon a (by rw [hu]; simp)
    rw [char, cons_append, run_chr_cons, if_neg (by simpa using ha)]
  rw [AUTHORITY, run_seqs_cons, lineStart, run_look, run_seqs_cons, run_opt]
  show (Regex.run _ (Regex.run slashes some) _).or (Regex.run slashes some _) = _
  rw [htaken, hskipped, or_none]

theorem run_slashes (hg : unit '@' ∉ g) (hne : g ≠ []) :
    Regex.run slashes some ⟨before, unit '/' :: unit '/' :: (g ++ unit '@' :: rest), []⟩ =
      some ⟨unit '@' :: (g.reverse ++ unit '/' :: unit '/' :: before), rest, [(1, g)]⟩ := by
  have hclass : ∀ u ∈ g, notAt u = true := fun u hu => by
    rw [notAt, bne_iff_ne]
    rintro rfl
    exact hg hu
  have hstop : ∀ u ∈ (unit '@' :: rest).head?, notAt u = false := by
    rintro u ⟨⟩
    decide
  rw [slashes, run_seqs_cons, char, run_chr_cons, run_seqs_cons, run_chr_cons, run_seqs_cons]
  refine run_group_plus_chr_longest hclass hne hstop ?_
  rw [run_seqs_cons, char, run_chr_cons, if_pos (beq_self_eq_true _), run_seqs_nil]

/-- Nothing is taken for the userinfo without slashes, without an `@`, or where this comes at
once. -/
theorem run_slashes_eq_none
    (h : ∀ t, rest = unit '/' :: unit '/' :: t → unit '@' ∉ t ∨ t.head? = some (unit '@')) :
    Regex.run slashes some ⟨before, rest, []⟩ = none := by
  rw [slashes, run_seqs_cons, char]
  rcases rest with _ | ⟨a, rest⟩
  · exact run_chr_nil ..
  by_cases ha : a = unit '/'
  · subst ha
    rw [run_chr_cons, if_pos (beq_self_eq_true _), run_seqs_cons]
    rcases rest with _ | ⟨a, t⟩
    · exact run_chr_nil ..
    by_cases ha : a = unit '/'
    · subst ha
      rw [run_chr_cons, run_seqs_cons]
      rcases h t rfl with h | h
      · have hclass : ∀ u ∈ t, notAt u = true := fun u hu => by
          rw [notAt, bne_iff_ne]
          rintro rfl
          exact h hu
        by_cases hne : t = []
        · rw [hne]
          exact run_group_plus_chr_stop fun u hu => by cases hu
        · have hfull : Regex.run (.group 1 (.plus (.chr notAt))) (Regex.run (Regex.seqs [char '@'])
              some) ⟨unit '/' :: unit '/' :: before, t ++ [], []⟩ = _ :=
            run_group_plus_chr_full hclass hne (fun u hu => by cases hu) fun u a v hu _ => by
              have ha := hclass a (by rw [hu]; simp)
              rw [run_seqs_cons, char, cons_append, run_chr_cons,
                if_neg (by simpa [notAt] using ha)]
          rw [append_nil] at hfull
          exact hfull
      · refine run_group_plus_chr_stop fun u hu => ?_
        rw [mem_def.mp hu] at h
        cases h
        decide
    · rw [run_chr_cons, if_neg (by simpa using ha)]
  · rw [run_chr_cons, if_neg (by simpa using ha)]

theorem isDelimiter_of_isSchemeChar (h : isSchemeChar u = true) :
    isDelimiter u = false := by
  rw [← Bool.not_eq_true]
  intro hd
  rw [isDelimiter, includes_eq_true_iff] at hd
  have hnot := forall_mem_of_all (P := fun u => isSchemeChar u = false) (by decide) _ hd
  rw [h] at hnot
  cases hnot

variable (rest) in
theorem head?_ends_start (hne : scheme ≠ []) (hscheme : ∀ u ∈ scheme, isSchemeChar u = true) :
    (pattern.ends ⟨[], scheme ++ unit ':' :: rest, []⟩).head? =
      Regex.run slashes some ⟨unit ':' :: scheme.reverse, rest, []⟩ := by
  obtain ⟨a, s, rfl⟩ := exists_cons_of_ne_nil hne
  have ha := isDelimiter_of_isSchemeChar (hscheme a (mem_cons_self ..))
  rw [head?_ends, pattern, run_alt, run_AUTHORITY hne hscheme, cons_append,
    run_QUERY_FRAGMENT_cons ha, or_none]

theorem textMask_cons {a : UInt16} (ha : isDelimiter a = false) (t : Str) :
    textMask (a :: t) = false :: textMask t := by
  have hcons := splitOnP_cons_eq_if_modifyHead (p := isDelimiter) a t
  rw [if_neg (Bool.eq_false_iff.mp ha)] at hcons
  obtain ⟨c, l, ht⟩ := exists_cons_of_ne_nil (splitOnP_ne_nil isDelimiter t)
  rw [textMask, textMask, hcons, ht]
  rfl

/-- A text in which nothing is taken for the userinfo. -/
theorem scans_url_plain (hne : scheme ≠ []) (hscheme : ∀ u ∈ scheme, isSchemeChar u = true)
    (hline : OneLine (scheme ++ unit ':' :: rest))
    (h : ∀ t, rest = unit '/' :: unit '/' :: t → unit '@' ∉ t ∨ t.head? = some (unit '@')) :
    Scans [] (scheme ++ unit ':' :: rest) (textMask (scheme ++ unit ':' :: rest)) := by
  have hstart := head?_ends_start rest hne hscheme
  rw [run_slashes_eq_none h, head?_eq_none_iff] at hstart
  obtain ⟨a, s, rfl⟩ := exists_cons_of_ne_nil hne
  obtain ⟨ha, hline⟩ := forall_mem_cons.mp hline
  have hinside : Inside [a] := ha
  rw [cons_append, textMask_cons (isDelimiter_of_isSchemeChar (hscheme a (mem_cons_self ..)))]
  exact Scans.skip (w := [a]) (scans_text hinside hline) (search_cons hstart)

/-- A text in which something is taken for the userinfo. -/
theorem scans_url_found (hne : scheme ≠ []) (hscheme : ∀ u ∈ scheme, isSchemeChar u = true)
    (hg : unit '@' ∉ g) (hgne : g ≠ [])
    (hline : OneLine (scheme ++ unit ':' :: unit '/' :: unit '/' :: (g ++ unit '@' :: rest))) :
    Scans [] (scheme ++ unit ':' :: unit '/' :: unit '/' :: (g ++ unit '@' :: rest))
      (List.replicate (scheme.length + 3) false ++ List.replicate g.length true ++ [false] ++
        textMask rest) := by
  have hstart := head?_ends_start (unit '/' :: unit '/' :: (g ++ unit '@' :: rest)) hne hscheme
  rw [run_slashes hg hgne] at hstart
  have hsearch := search_of_head? hstart
  have htext : scheme ++ unit ':' :: unit '/' :: unit '/' :: (g ++ unit '@' :: rest) =
      scheme ++ unit ':' :: unit '/' :: unit '/' :: (g ++ [unit '@']) ++ rest := by
    simp
  rw [htext] at hsearch hline ⊢
  have hinside : Inside ((scheme ++ unit ':' :: unit '/' :: unit '/' ::
      (g ++ [unit '@'])).reverse ++ []) := by
    show Option.all _ _ = false
    simp
    decide
  refine Scans.of_found hsearch (by simp) (by simp) ?_ ?_
    (scans_text hinside (forall_mem_append.mp hline).2)
  · have hmarks := (Marks.singleton 0 (scheme.length + 3) g.length (Nat.le_add_right _ _)).append
      (Marks.nil _ 1)
    rwa [matchRanges_of_userinfo rfl rfl (a := 0 + (scheme.length + 3))]
    simp only [Regex.Found.length, Regex.Found.lastIndex, length_append,
      length_reverse, length_cons, length_nil]
    omega
  · simp
    omega

/-! ## Whatever was analysed before -/

/-- A match is not empty. -/
theorem ne_nil_of_mem_ends {c e : Regex.Cursor UInt16} (h : e ∈ pattern.ends c) :
    ∃ w, w ≠ [] ∧ Regex.Took c w e := by
  have hstep (p : UInt16 → Bool) (r : Regex UInt16) (c e : Regex.Cursor UInt16)
      (h : e ∈ Regex.ends (.seq (.chr p) r) c) : ∃ w, w ≠ [] ∧ Regex.Took c w e := by
    obtain ⟨c', hc', h⟩ := mem_ends_seq.mp h
    obtain ⟨a, -, ht⟩ := took_of_mem_ends_chr hc'
    obtain ⟨w, ht'⟩ := exists_took _ _ _ h
    exact ⟨[a] ++ w, cons_ne_nil _ _, ht.trans ht'⟩
  rcases mem_append.mp h with h | h
  · obtain ⟨c₁, h₁, h⟩ := mem_ends_seq.mp h
    obtain ⟨c₂, h₂, h⟩ := mem_ends_seq.mp h
    obtain ⟨v₁, t₁⟩ := exists_took _ _ _ h₁
    obtain ⟨v₂, t₂⟩ := exists_took _ _ _ h₂
    obtain ⟨w, hw, t₃⟩ := hstep _ _ _ _ h
    exact ⟨v₁ ++ (v₂ ++ w), by simp [hw], t₁.trans (t₂.trans t₃)⟩
  · exact hstep _ _ _ _ h

theorem exists_loop_eq (fuel : ℕ) (value : Str) (lastIndex : ℕ) (h : lastIndex ≤ value.length)
    (hfuel : value.length < lastIndex + fuel) :
    ∃ ranges, loop fuel value lastIndex = some (ranges, 0) := by
  induction fuel generalizing lastIndex with
  | zero => omega
  | succ fuel ih =>
    rcases hexec : pattern.exec value lastIndex with _ | m
    · exact ⟨[], by rw [loop, hexec]⟩
    · obtain ⟨u, v, hvalue, hle, -, hends⟩ := exists_of_exec hexec
      obtain ⟨w, hw, ht⟩ := ne_nil_of_mem_ends hends
      have hpos := length_pos_of_ne_nil hw
      have hlast : m.lastIndex = u.length + w.length := by
        rw [Regex.Found.lastIndex, ht.length_before, length_reverse]
      have hlength : value.length = u.length + (w.length + m.stop.rest.length) := by
        have hrest : v = w ++ m.stop.rest := ht.rest
        rw [hvalue, hrest, length_append, length_append]
      obtain ⟨ranges, hloop⟩ := ih m.lastIndex (by omega) (by omega)
      refine ⟨matchRanges m ++ ranges, ?_⟩
      rw [loop, hexec]
      simp only [hloop, map_some]

/-- The expression is back at its start after every analysis. -/
theorem lastIndexBehind_eq (values : List Str) : lastIndexBehind values = some 0 := by
  induction values with
  | nil => rfl
  | cons value values ih =>
    obtain ⟨ranges, h⟩ := exists_loop_eq (value.length + 1) value 0 (Nat.zero_le _) (by omega)
    rw [lastIndexBehind, foldlM_cons, extractSensitiveRanges, h]
    exact ih

/-- What an analysis makes of a text, whatever was analysed before. -/
theorem exists_of_scans {text : Str} (h : Scans [] text mask) :
    ∃ ranges, extractSensitiveRanges 0 text = some (ranges, 0) ∧ Marks ranges 0 mask :=
  h (text.length + 1) text 0 (Nat.lt_succ_self _) rfl rfl

/-! ## What is covered of a piece -/

theorem length_chunkMask (c : Str) : (chunkMask c).length = c.length := by
  rw [chunkMask]
  rcases hcut : chunkCut c with _ | ⟨k, v⟩
  · exact length_replicate
  · obtain ⟨rfl, -⟩ := length_chunkCut hcut
    simp only [length_append, length_replicate, length_cons]
    omega

theorem length_delimiterMask (t : Str) : (delimiterMask t).length = t.length + 1 := by
  induction hn : t.length using Nat.strongRecOn generalizing t with
  | _ n ih =>
    rcases chunk_or t with hc | ⟨c, d, t, rfl, hc, hd⟩
    · rw [delimiterMask_of_chunk hc, length_cons, length_chunkMask, hn]
    · rw [length_append, length_cons] at hn
      rw [delimiterMask_append c t hd, delimiterMask_of_chunk hc, length_append,
        ih t.length (by omega) t rfl, length_cons, length_chunkMask]
      omega

theorem length_textMask (t : Str) : (textMask t).length = t.length := by
  rcases chunk_or t with hc | ⟨c, d, t, rfl, hc, hd⟩
  · rw [textMask_of_chunk hc, length_replicate]
  · rw [textMask_append c t hd, textMask_of_chunk hc, length_append, length_replicate,
      length_delimiterMask, length_append, length_cons]

/-- What is covered of a text up to its first `@`, and what is found behind this. -/
def hiddenMask (t : Str) : List Bool :=
  match Str.cut (unit '@') t with
  | none => List.replicate t.length true
  | some (x, y) => List.replicate x.length true ++ false :: textMask y

/-- What is covered of a text, when everything up to its first `@` is, or not. -/
def openMask (hidden : Bool) (t : Str) : List Bool := if hidden then hiddenMask t else textMask t

/-- What is covered of a delimiter and the text behind it. -/
def behindMask (hidden : Bool) (t : Str) : List Bool :=
  if hidden then true :: hiddenMask t else delimiterMask t

theorem hiddenMask_of_notMem (h : unit '@' ∉ t) :
    hiddenMask t = List.replicate t.length true := by
  rw [hiddenMask, cut_eq_none_iff.mpr h]

theorem hiddenMask_append {x : Str} (hx : unit '@' ∉ x) (y : Str) :
    hiddenMask (x ++ unit '@' :: y) = List.replicate x.length true ++ false :: textMask y := by
  rw [hiddenMask, cut_append hx]

theorem exists_at (h : unit '@' ∈ t) :
    ∃ x y, unit '@' ∉ x ∧ t = x ++ unit '@' :: y := by
  rcases hcut : Str.cut (unit '@') t with _ | ⟨x, y⟩
  · exact (cut_eq_none_iff.mp hcut h).elim
  · obtain ⟨rfl, hx⟩ := cut_eq_some hcut
    exact ⟨x, y, hx, rfl⟩

theorem hiddenMask_append_cons (s t : Str) (hd : isDelimiter d = true) : hiddenMask (s ++ d :: t) =
      hiddenMask s ++ behindMask (!includes s (unit '@')) t := by
  by_cases hs : unit '@' ∈ s
  · obtain ⟨x, y, hx, rfl⟩ := exists_at hs
    rw [append_assoc, cons_append, hiddenMask_append hx, hiddenMask_append hx,
      textMask_append y t hd, includes_eq_true_iff.mpr hs, append_assoc]
    rfl
  · have hne : d ≠ unit '@' := by
      rintro rfl
      revert hd
      decide
    rw [includes_eq_false_iff.mpr hs, hiddenMask_of_notMem hs]
    show _ = List.replicate s.length true ++ true :: hiddenMask t
    by_cases ht : unit '@' ∈ t
    · obtain ⟨x, y, hx, rfl⟩ := exists_at ht
      have hsx : unit '@' ∉ s ++ d :: x := by
        rw [mem_append, mem_cons]
        exact fun h => h.elim hs fun h => h.elim (fun h => hne h.symm) hx
      rw [← cons_append, ← append_assoc, hiddenMask_append hsx, hiddenMask_append hx, length_append,
        length_cons, ← replicate_append_replicate, replicate_succ, append_assoc, cons_append]
    · have hst : unit '@' ∉ s ++ d :: t := by
        rw [mem_append, mem_cons]
        exact fun h => h.elim hs fun h => h.elim (fun h => hne h.symm) ht
      rw [hiddenMask_of_notMem hst, hiddenMask_of_notMem ht, length_append, length_cons,
        ← replicate_append_replicate, replicate_succ]

theorem openMask_append (hidden : Bool) (s t : Str) (hd : isDelimiter d = true) :
    openMask hidden (s ++ d :: t) =
      openMask hidden s ++ behindMask (hidden && !includes s (unit '@')) t := by
  cases hidden with
  | false => exact textMask_append s t hd
  | true => exact hiddenMask_append_cons s t hd

theorem behindMask_append (hidden : Bool) (s t : Str) (hd : isDelimiter d = true) :
    behindMask hidden (s ++ d :: t) =
      behindMask hidden s ++ behindMask (hidden && !includes s (unit '@')) t := by
  cases hidden with
  | false => exact delimiterMask_append s t hd
  | true => exact congrArg (true :: ·) (hiddenMask_append_cons s t hd)

theorem length_hiddenMask (t : Str) : (hiddenMask t).length = t.length := by
  by_cases ht : unit '@' ∈ t
  · obtain ⟨x, y, hx, rfl⟩ := exists_at ht
    rw [hiddenMask_append hx, length_append, length_replicate, length_cons,
      length_textMask, length_append, length_cons]
  · rw [hiddenMask_of_notMem ht, length_replicate]

theorem length_behindMask (hidden : Bool) (t : Str) :
    (behindMask hidden t).length = t.length + 1 := by
  cases hidden with
  | false => exact length_delimiterMask t
  | true => exact congrArg (· + 1) (length_hiddenMask t)

theorem length_openMask (hidden : Bool) (t : Str) : (openMask hidden t).length = t.length := by
  cases hidden with
  | false => exact length_textMask t
  | true => exact length_hiddenMask t

theorem false_mem_delimiterMask (t : Str) : false ∈ delimiterMask t := by
  obtain ⟨c, l, hc⟩ := exists_cons_of_ne_nil (splitOnP_ne_nil isDelimiter t)
  rw [delimiterMask, hc]
  exact mem_cons_self ..

theorem false_mem_textMask (h : t ≠ []) : false ∈ textMask t := by
  obtain ⟨u, s, rfl⟩ := exists_cons_of_ne_nil h
  rcases hu : isDelimiter u with _ | _
  · rw [textMask_cons hu]
    exact mem_cons_self ..
  · rw [← List.nil_append (u :: s), textMask_append [] s hu]
    exact mem_append_right _ (false_mem_delimiterMask s)

theorem textMask_chunk_append (hw : Chunk w) (t : Str) :
    textMask (w ++ t) = List.replicate w.length false ++ textMask t := by
  induction w with
  | nil => rfl
  | cons u w ih =>
    obtain ⟨hu, hw⟩ := forall_mem_cons.mp hw
    rw [cons_append, textMask_cons hu, ih hw, length_cons, replicate_succ, cons_append]

/-- A mask that ends in the mask of a value, which is wholly covered or not. -/
def Ends (mask : List Bool) (n : ℕ) (whole : Bool) : Prop :=
  ∃ a b, mask = a ++ b ∧ b.length = n ∧ ((∀ x ∈ b, x = true) ↔ whole = true)

theorem Ends.append {n : ℕ} {whole : Bool} (h : Ends mask n whole)
    (a : List Bool) : Ends (a ++ mask) n whole := by
  obtain ⟨a', b, rfl, hb⟩ := h
  exact ⟨a ++ a', b, (append_assoc ..).symm, hb⟩

theorem Ends.nil (mask : List Bool) (whole : Bool) (h : whole = true) : Ends mask 0 whole :=
  ⟨mask, [], (append_nil _).symm, rfl, by simp [h]⟩

/-- A value with a character that is not covered. -/
theorem Ends.of_false {a b : List Bool} {n : ℕ} (hmask : mask = a ++ b) (hb : b.length = n)
    (h : false ∈ b) : Ends mask n false := by
  refine ⟨a, b, hmask, hb, ?_⟩
  exact iff_of_false (fun hall => Bool.false_ne_true (hall false h)) Bool.false_ne_true

/-- The characters that a component of a query does not have. -/
def Component (s : Str) : Prop := ∀ u ∈ s, u ≠ unit '#' ∧ u ≠ unit '&'

theorem chunk_of_component {s : Str} (h : Component s) (hs : unit '?' ∉ s) : Chunk s := by
  intro u hu
  rw [← Bool.not_eq_true]
  intro hd
  have hlist : lit "?#&" = [unit '?', unit '#', unit '&'] := by decide
  rw [isDelimiter, includes_eq_true_iff, hlist] at hd
  simp only [mem_cons, not_mem_nil, or_false] at hd
  rcases hd with rfl | rfl | rfl
  · exact hs hu
  · exact (h _ hu).1 rfl
  · exact (h _ hu).2 rfl

theorem exists_question (h : unit '?' ∈ t) :
    ∃ x y, t = x ++ unit '?' :: y ∧ unit '?' ∉ x := by
  rcases hcut : Str.cut (unit '?') t with _ | ⟨x, y⟩
  · exact (cut_eq_none_iff.mp hcut h).elim
  · obtain ⟨rfl, hx⟩ := cut_eq_some hcut
    exact ⟨x, y, rfl, hx⟩

theorem exists_last_question (h : unit '?' ∈ t) :
    ∃ x y, t = x ++ unit '?' :: y ∧ unit '?' ∉ y := by
  obtain ⟨x, y, hxy, hx⟩ := exists_question (mem_reverse.mpr h)
  refine ⟨y.reverse, x.reverse, ?_, fun h => hx (mem_reverse.mp h)⟩
  rw [← reverse_reverse t, hxy, reverse_append, reverse_cons, append_assoc]
  rfl

theorem lastPart_of_notMem {key : Str} (h : unit '?' ∉ key) : lastPart key = key := by
  rw [lastPart, split_of_notMem h]
  rfl

theorem lastPart_append (x : Str) {y : Str} (h : unit '?' ∉ y) :
    lastPart (x ++ unit '?' :: y) = y := by
  have hsplit : Str.split (unit '?') (x ++ unit '?' :: y) =
      Str.split (unit '?') x ++ Str.split (unit '?') y := splitOn_append_cons_self x y
  rw [lastPart, hsplit, split_of_notMem h, getLastD_concat]

variable {key value : Str}

theorem chunkCut_pair (hequals : unit '=' ∉ key) (value : Str) :
    chunkCut (key ++ unit '=' :: value) =
      if key ≠ [] ∧ unit ';' ∉ key ∧ value ≠ [] then some (key, value) else none := by
  rw [chunkCut, cut_append hequals]
  by_cases h : key ≠ [] ∧ unit ';' ∉ key ∧ value ≠ []
  · simp [Option.filter, h.1, h.2.1, h.2.2]
  · rw [if_neg h]
    simp only [Option.filter]
    rw [if_neg]
    intro hfilter
    simp only [Bool.and_eq_true, Bool.not_eq_true', isEmpty_eq_false_iff,
      includes_eq_false_iff] at hfilter
    exact h ⟨hfilter.1.1, hfilter.1.2, hfilter.2⟩

/-- A key without `?`, and its value. -/
theorem ends_last (hkey : Component key) (hquestion : unit '?' ∉ key) (hequals : unit '=' ∉ key)
    (hvalue : Component value) :
    Ends (delimiterMask (key ++ unit '=' :: value)) value.length (value.isEmpty ||
        (!key.isEmpty && !includes key (unit ';') && !includes value (unit '?'))) := by
  have hpair {v : Str} (hv : Chunk v) : Chunk (key ++ unit '=' :: v) := by
    refine forall_mem_append.mpr ⟨chunk_of_component hkey hquestion,
      forall_mem_cons.mpr ⟨by decide, hv⟩⟩
  by_cases hmem : unit '?' ∈ value
  · obtain ⟨v, w, rfl, hv⟩ := exists_question hmem
    have hchunk : Chunk v := chunk_of_component (fun u hu => hvalue u (by simp [hu])) hv
    have hlength : (false :: chunkMask (key ++ unit '=' :: v)).length =
        key.length + 2 + v.length := by
      rw [length_cons, length_chunkMask, length_append, length_cons]
      omega
    have hwhole : ((v ++ unit '?' :: w).isEmpty || (!key.isEmpty && !includes key (unit ';') &&
        !includes (v ++ unit '?' :: w) (unit '?'))) = false := by
      simp
    rw [hwhole]
    refine Ends.of_false (a := (false :: chunkMask (key ++ unit '=' :: v)).take (key.length + 2))
      (b := (false :: chunkMask (key ++ unit '=' :: v)).drop (key.length + 2) ++ delimiterMask w)
      ?_ ?_ ?_
    · rw [← append_assoc, take_append_drop, ← delimiterMask_of_chunk (hpair hchunk),
        ← delimiterMask_append (d := unit '?') _ w (by decide), append_assoc,
        cons_append]
    · rw [length_append, length_drop, hlength, length_delimiterMask, length_append, length_cons]
      omega
    · exact mem_append_right _ (false_mem_delimiterMask w)
  · have hchunk : Chunk value := chunk_of_component hvalue hmem
    rw [delimiterMask_of_chunk (hpair hchunk), includes_eq_false_iff.mpr hmem, chunkMask,
      chunkCut_pair hequals]
    by_cases hempty : value = []
    · rw [hempty]
      exact Ends.nil _ _ rfl
    · by_cases hrecognised : key ≠ [] ∧ unit ';' ∉ key
      · rw [if_pos ⟨hrecognised.1, hrecognised.2, hempty⟩]
        refine ⟨false :: List.replicate (key.length + 1) false,
          List.replicate value.length true, rfl, length_replicate, ?_⟩
        simp [hrecognised.1, hrecognised.2]
      · have hwhole : (value.isEmpty || (!key.isEmpty && !includes key (unit ';') && !false)) =
            false := by
          rw [← Bool.not_eq_true]
          intro h
          simp only [Bool.or_eq_true, List.isEmpty_iff, Bool.and_eq_true, Bool.not_eq_true',
            isEmpty_eq_false_iff, includes_eq_false_iff, Bool.not_false, and_true] at h
          exact h.elim hempty hrecognised
        rw [if_neg fun h => hrecognised ⟨h.1, h.2.1⟩, hwhole]
        refine Ends.of_false (a := List.replicate (key.length + 2) false)
          (b := List.replicate value.length false) ?_ length_replicate ?_
        · rw [replicate_append_replicate, length_append, length_cons, ← replicate_succ]
          congr 1
          omega
        · exact mem_replicate.mpr ⟨fun h => hempty (length_eq_zero_iff.mp h), rfl⟩

/-- A pair behind a delimiter. -/
theorem ends_pair (hkey : Component key) (hequals : unit '=' ∉ key) (hvalue : Component value) :
    Ends (delimiterMask (key ++ unit '=' :: value)) value.length (Piece.pair key value).clear := by
  rw [Piece.clear, isRecognised]
  by_cases hquestion : unit '?' ∈ key
  · obtain ⟨x, y, rfl, hy⟩ := exists_last_question hquestion
    rw [lastPart_append x hy, append_assoc, cons_append,
      delimiterMask_append (d := unit '?') x _ (by decide)]
    exact (ends_last (fun u hu => hkey u (by simp [hu])) hy (fun h => hequals (by simp [h]))
      hvalue).append _
  · rw [lastPart_of_notMem hquestion]
    exact ends_last hkey hquestion hequals hvalue

/-- A pair whose key begins in what is taken for the userinfo. -/
theorem ends_text (hkey : Component key) (hequals : unit '=' ∉ key) (hvalue : Component value) :
    Ends (textMask (key ++ unit '=' :: value)) value.length
      (value.isEmpty || includes key (unit '?') && isRecognised key &&
        !includes value (unit '?')) := by
  by_cases hquestion : unit '?' ∈ key
  · obtain ⟨x, y, rfl, hy⟩ := exists_question hquestion
    have hlast : isRecognised (x ++ unit '?' :: y) = isRecognised y := by
      by_cases hy' : unit '?' ∈ y
      · obtain ⟨z, t, rfl, ht⟩ := exists_last_question hy'
        have happend : x ++ unit '?' :: (z ++ unit '?' :: t) =
            (x ++ unit '?' :: z) ++ unit '?' :: t := by simp
        rw [isRecognised, isRecognised, happend, lastPart_append _ ht, lastPart_append _ ht]
      · rw [isRecognised, isRecognised, lastPart_append x hy', lastPart_of_notMem hy']
    have hkey' : Component y := fun u hu => hkey u (by simp [hu])
    have hpair := ends_pair hkey' (fun h => hequals (by simp [h])) hvalue
    rw [includes_eq_true_iff.mpr hquestion, hlast, append_assoc,
      cons_append, textMask_append (d := unit '?') x _ (by decide)]
    exact hpair.append _
  · have hkeyChunk : Chunk (key ++ [unit '=']) := forall_mem_append.mpr
      ⟨chunk_of_component hkey hquestion, forall_mem_singleton.mpr (by decide)⟩
    rw [includes_eq_false_iff.mpr hquestion, Bool.false_and, Bool.false_and]
    by_cases hempty : value = []
    · rw [hempty]
      exact Ends.nil _ _ rfl
    · have htext : key ++ unit '=' :: value = (key ++ [unit '=']) ++ value := by simp
      rw [isEmpty_eq_false_iff.mpr hempty, htext, textMask_chunk_append hkeyChunk]
      exact Ends.of_false rfl (length_textMask value) (false_mem_textMask hempty)

/-- A pair in which what is taken for the userinfo may end. -/
theorem ends_hidden (hkey : Component key) (hequals : unit '=' ∉ key) (hvalue : Component value) :
    Ends (true :: hiddenMask (key ++ unit '=' :: value)) value.length
      (Piece.pair key value).clearHidden := by
  rw [Piece.clearHidden]
  by_cases hat : unit '@' ∈ key
  · obtain ⟨x, y, hx, rfl⟩ := exists_at hat
    have hkey' : Component y := fun u hu => hkey u (by simp [hu])
    have htext := ends_text hkey' (fun h => hequals (by simp [h])) hvalue
    rw [cut_append hx, append_assoc, cons_append, hiddenMask_append hx]
    have happend := htext.append (true :: (List.replicate x.length true ++ [false]))
    rwa [cons_append, append_assoc] at happend
  · rw [cut_eq_none_iff.mpr hat]
    by_cases hmem : unit '@' ∈ value
    · obtain ⟨x, y, hx, rfl⟩ := exists_at hmem
      have hnotMem : unit '@' ∉ key ++ unit '=' :: x := by
        rw [mem_append, mem_cons]
        exact fun h => h.elim hat fun h => h.elim (by decide) hx
      have htext : key ++ unit '=' :: (x ++ unit '@' :: y) =
          (key ++ unit '=' :: x) ++ unit '@' :: y := by simp
      rw [includes_eq_true_iff.mpr hmem, htext, hiddenMask_append hnotMem]
      refine Ends.of_false (a := List.replicate (key.length + 2) true)
        (b := List.replicate x.length true ++ false :: textMask y) ?_ ?_ ?_
      · rw [← append_assoc, replicate_append_replicate, length_append,
          length_cons, ← cons_append, ← replicate_succ]
        congr 2
        omega
      · rw [length_append, length_replicate, length_cons, length_textMask,
          length_append, length_cons]
      · exact mem_append_right _ (mem_cons_self ..)
    · have hnotMem : unit '@' ∉ key ++ unit '=' :: value := by
        rw [mem_append, mem_cons]
        exact fun h => h.elim hat fun h => h.elim (by decide) hmem
      rw [includes_eq_false_iff.mpr hmem, hiddenMask_of_notMem hnotMem]
      refine ⟨List.replicate (key.length + 2) true, List.replicate value.length true, ?_,
        length_replicate, iff_of_true (fun x hx => eq_of_mem_replicate hx) rfl⟩
      rw [replicate_append_replicate, ← replicate_succ, length_append, length_cons]
      congr 1
      omega

/-! ## What is covered of a query -/

/-- A mask has these indices. -/
def Shows (mask : List Bool) (secret : ℕ × ℕ) : Prop :=
  ∀ i, secret.1 ≤ i → i < secret.2 → mask[i]? = some true

theorem Marks.covers_iff {ranges : List Range} (h : Marks ranges 0 mask)
    (secret : ℕ × ℕ) : Covers ranges secret ↔ Shows mask secret := by
  refine forall_congr' fun i => ?_
  rw [h.covered_iff]
  exact ⟨fun hi h₁ h₂ => (hi h₁ h₂).2, fun hi h₁ h₂ => ⟨Nat.zero_le _, hi h₁ h₂⟩⟩

theorem shows_append_iff (a b c : List Bool) :
    Shows (a ++ (b ++ c)) (a.length, a.length + b.length) ↔ ∀ x ∈ b, x = true := by
  constructor
  · intro h x hx
    obtain ⟨i, hi, rfl⟩ := mem_iff_getElem.mp hx
    have hshown := h (a.length + i) (Nat.le_add_right _ _) (Nat.add_lt_add_left hi _)
    rw [getElem?_append_right (Nat.le_add_right _ _), Nat.add_sub_cancel_left,
      getElem?_append_left hi, getElem?_eq_getElem hi] at hshown
    exact some_injective _ hshown
  · intro h i hle hlt
    have hi : i - a.length < b.length := by
      omega
    rw [getElem?_append_right hle, getElem?_append_left hi,
      getElem?_eq_getElem hi, h _ (getElem_mem hi)]

theorem Ends.shows_iff {n : ℕ} {whole : Bool} (h : Ends mask n whole)
    (a c : List Bool) {secret : ℕ × ℕ} (hstart : secret.1 + n = a.length + mask.length)
    (hstop : secret.2 = a.length + mask.length) :
    Shows (a ++ (mask ++ c)) secret ↔ whole = true := by
  obtain ⟨a', b, rfl, rfl, hb⟩ := h
  rw [length_append] at hstart hstop
  have hsecret : secret = ((a ++ a').length, (a ++ a').length + b.length) := by
    refine Prod.ext ?_ ?_
    all_goals
      simp only [length_append]
      omega
  have hshows := shows_append_iff (a ++ a') b c
  rw [← hb, hsecret, append_assoc a' b c, ← append_assoc a a' (b ++ c)]
  exact hshows

/-- What is covered of pieces, each behind its delimiter. -/
def piecesMask : Bool → List Piece → List Bool
  | _, [] => []
  | hidden, p :: ps =>
    behindMask hidden p.text ++ piecesMask (hidden && !includes p.text (unit '@')) ps

theorem clearFrom_cons (hidden : Bool) (p : Piece) (ps : List Piece) :
    clearFrom hidden (p :: ps) = ((if hidden then p.clearHidden else p.clear) &&
      clearFrom (hidden && !includes p.text (unit '@')) ps) := by
  cases hidden <;> rfl

theorem Piece.IsValid.component {p : Piece} (h : p.IsValid) {s : Str}
    (hs : ∀ u ∈ s, u ∈ p.text) : Component s := by
  intro u hu
  constructor
  · rintro rfl
    exact absurd (h.isQuery _ (hs _ hu)) (by decide)
  · rintro rfl
    exact h.notMem_text (hs _ hu)

/-- A piece behind its delimiter. -/
theorem shows_piece_iff (hidden : Bool) {p : Piece} (hp : p.IsValid) (a c : List Bool) :
    (∀ secret ∈ p.values (a.length + 1), Shows (a ++ (behindMask hidden p.text ++ c)) secret) ↔
      (if hidden then p.clearHidden else p.clear) = true := by
  rcases p with text | ⟨key, value⟩
  · refine iff_of_true (fun secret h => (not_mem_nil h).elim) ?_
    cases hidden <;> rfl
  · have hkey : Component key := hp.component fun u hu => mem_append_left _ hu
    have hvalue : Component value := hp.component fun u hu =>
      mem_append_right _ (mem_cons_of_mem _ hu)
    have hends : Ends (behindMask hidden (key ++ unit '=' :: value)) value.length
        (if hidden then (Piece.pair key value).clearHidden else (Piece.pair key value).clear) := by
      cases hidden with
      | false => exact ends_pair hkey hp.notMem_name hvalue
      | true => exact ends_hidden hkey hp.notMem_name hvalue
    have hlength := length_behindMask hidden (key ++ unit '=' :: value)
    rw [length_append, length_cons] at hlength
    rw [Piece.values, forall_mem_singleton]
    refine hends.shows_iff a c ?_ ?_
    · omega
    · omega

/-- **The values of pieces.** -/
theorem shows_pieces_iff (hidden : Bool) {ps : List Piece} (hps : ∀ p ∈ ps, p.IsValid)
    (a c : List Bool) :
    (∀ secret ∈ valuesFrom (a.length + 1) ps, Shows (a ++ (piecesMask hidden ps ++ c)) secret) ↔
      clearFrom hidden ps = true := by
  induction ps generalizing hidden a with
  | nil =>
    refine iff_of_true (fun secret h => (not_mem_nil h).elim) ?_
    cases hidden <;> rfl
  | cons p ps ih =>
    obtain ⟨hp, hps⟩ := forall_mem_cons.mp hps
    have hlength : a.length + 1 + p.text.length + 1 =
        (a ++ behindMask hidden p.text).length + 1 := by
      rw [length_append, length_behindMask]
      omega
    have hfirst := shows_piece_iff hidden hp a
      (piecesMask (hidden && !includes p.text (unit '@')) ps ++ c)
    have hothers := ih (hidden && !includes p.text (unit '@')) hps (a ++ behindMask hidden p.text)
    rw [valuesFrom, piecesMask, forall_mem_append, clearFrom_cons, Bool.and_eq_true, hlength,
      append_assoc, hfirst, ← append_assoc a, hothers]

theorem behindMask_join (hidden : Bool) (p : Piece) (ps : List Piece) :
    behindMask hidden (Str.join (unit '&') ((p :: ps).map Piece.text)) =
      piecesMask hidden (p :: ps) := by
  induction ps generalizing hidden p with
  | nil => rw [map_singleton, join_singleton, piecesMask, piecesMask, append_nil]
  | cons q ps ih =>
    rw [map_cons, join_cons _ _ (by simp), behindMask_append _ _ _ (by decide), ih]
    rfl

theorem Query.behindMask_text (q : Query) (hidden : Bool) :
    behindMask hidden q.text = piecesMask hidden q.pieces := behindMask_join hidden q.first q.others

/-- **The values of a query.** -/
theorem shows_query_iff (q : Query) (hidden : Bool) (a c : List Bool) :
    (∀ secret ∈ valuesFrom (a.length + 1) q.pieces,
        Shows (a ++ (behindMask hidden q.text ++ c)) secret) ↔
      clearFrom hidden q.pieces = true := by
  rw [q.behindMask_text]
  exact shows_pieces_iff hidden q.valid a c

/-! ## URLs -/

theorem isLineTerminator_eq_false_of {p : UInt16 → Bool} (h : p u = true)
    (hp : ([0x0A, 0x0D, 0x2028, 0x2029] : List UInt16).all (fun u => !p u) = true) :
    isLineTerminator u = false := by
  rw [← Bool.not_eq_true]
  intro hu
  have hmem : u ∈ ([0x0A, 0x0D, 0x2028, 0x2029] : List UInt16) := by
    simp only [isLineTerminator, Bool.or_eq_true, beq_iff_eq] at hu
    simp only [mem_cons, not_mem_nil, or_false, ← UInt16.toNat_inj]
    exact or_assoc.mp (or_assoc.mp hu)
  have hnot := List.all_eq_true.mp hp u hmem
  rw [h] at hnot
  cases hnot

theorem Query.isQuery_text (q : Query) : ∀ u ∈ q.text, isQuery u = true := by
  intro u hu
  rcases mem_join hu with rfl | ⟨s, hs, hu⟩
  · decide
  · obtain ⟨p, hp, rfl⟩ := List.mem_map.mp hs
    exact (q.valid p hp).isQuery u hu

namespace Url

theorem oneLine_tail (url : Url) : OneLine url.tail := by
  have hquery (q : Query) : OneLine q.text := fun u hu =>
    isLineTerminator_eq_false_of (q.isQuery_text u hu) (by decide)
  refine forall_mem_append.mpr ⟨fun u hu =>
    isLineTerminator_eq_false_of (url.isPath_path u hu) (by decide),
    forall_mem_append.mpr ⟨?_, ?_⟩⟩
  · cases url.query with
    | none => exact fun _ h => (not_mem_nil h).elim
    | some q => exact forall_mem_cons.mpr ⟨by decide, hquery q⟩
  · cases url.fragment with
    | none => exact fun _ h => (not_mem_nil h).elim
    | some f => exact forall_mem_cons.mpr ⟨by decide, hquery f⟩

theorem oneLine_text (url : Url) : OneLine url.text := by
  refine forall_mem_append.mpr ⟨fun u hu =>
    isLineTerminator_eq_false_of (url.isSchemeChar_scheme u hu) (by decide),
    forall_mem_cons.mpr ⟨by decide, forall_mem_append.mpr ⟨?_, url.oneLine_tail⟩⟩⟩
  rcases url.authority with _ | a
  · exact fun _ h => (not_mem_nil h).elim
  · refine forall_mem_append.mpr ⟨forall_mem_of_all (by decide),
      forall_mem_append.mpr ⟨?_, fun u hu =>
        isLineTerminator_eq_false_of (a.isHostPort_hostPort u hu) (by decide)⟩⟩
    rcases huserinfo : a.userinfo with _ | s
    · exact fun _ h => (not_mem_nil h).elim
    · refine forall_mem_append.mpr ⟨fun u hu =>
        isLineTerminator_eq_false_of (a.isUserinfo_userinfo s huserinfo u hu) (by decide),
        forall_mem_singleton.mpr (by decide)⟩

/-- What is covered of the query and the fragment. -/
theorem openMask_tail (url : Url) (hidden : Bool) (pre : Str) :
    openMask hidden (pre ++ url.tail) = openMask hidden (pre ++ url.path) ++
      ((url.query.elim [] fun q =>
        behindMask (hidden && !includes (pre ++ url.path) (unit '@')) q.text) ++
      url.fragment.elim [] fun f => behindMask (hidden && !includes (pre ++ url.path) (unit '@') &&
        !(url.query.any fun q => includes q.text (unit '@'))) f.text) := by
  rw [tail, ← append_assoc]
  rcases url.query with _ | q
  · rcases url.fragment with _ | f
    · simp
    · simp only [elim_none, elim_some, List.nil_append, any_none, Bool.not_false, Bool.and_true]
      exact openMask_append hidden _ _ (by decide)
  · rcases url.fragment with _ | f
    · simp only [elim_none, elim_some, append_nil]
      exact openMask_append hidden _ _ (by decide)
    · simp only [elim_some, any_some, cons_append]
      rw [openMask_append hidden _ _ (by decide), behindMask_append _ _ _ (by decide)]

variable (previous : List Str)

/-- **The secrets of a URL**, when its mask is known from the host on. -/
theorem protects_iff_of_scans (url : Url) {a : List Bool} (pre : Str)
    (hscans : Scans [] url.text (a ++ openMask url.hides (pre ++ url.tail)))
    (hstart : a.length + pre.length = url.pathStart)
    (hpre : url.hides = true → unit '@' ∉ pre)
    (huserinfo : ∀ secret ∈ (url.authority.elim [] fun a => a.userinfo.elim [] fun s =>
      [(url.scheme.length + 3, url.scheme.length + 3 + s.length)]),
        Shows (a ++ openMask url.hides (pre ++ url.tail)) secret) :
    Protects previous url ↔ url.Clear := by
  obtain ⟨ranges, hranges, hmarks⟩ := exists_of_scans hscans
  have hinQuery : (url.hides && !includes (pre ++ url.path) (unit '@')) =
      (url.hides && !includes url.path (unit '@')) := by
    rcases hhides : url.hides with _ | _
    · rfl
    · rw [Bool.true_and, Bool.true_and, Bool.eq_iff_iff, Bool.not_eq_true', Bool.not_eq_true',
        includes_eq_false_iff, includes_eq_false_iff, mem_append, not_or]
      exact ⟨fun h => h.2, fun h => ⟨hpre hhides, h⟩⟩
  have hprotects : Protects previous url ↔
      ∀ secret ∈ url.secrets, Shows (a ++ openMask url.hides (pre ++ url.tail)) secret := by
    constructor
    · rintro ⟨lastIndex, ranges', hlast, hranges', -, hcovers⟩ secret hsecret
      obtain rfl : 0 = lastIndex :=
        some_injective _ ((lastIndexBehind_eq _).symm.trans hlast)
      obtain rfl : ranges = ranges' :=
        (Prod.mk.inj (some_injective _ (hranges.symm.trans hranges'))).1
      exact (hmarks.covers_iff secret).mp (hcovers secret hsecret)
    · intro h
      exact ⟨0, ranges, lastIndexBehind_eq previous, hranges, hmarks.sorted,
        fun secret hsecret => (hmarks.covers_iff secret).mpr (h secret hsecret)⟩
  rw [hprotects, secrets, forall_mem_append, and_iff_right huserinfo,
    forall_mem_append, openMask_tail, hinQuery]
  have hlength : (a ++ openMask url.hides (pre ++ url.path)).length =
      url.pathStart + url.path.length := by
    rw [length_append, length_openMask, length_append]
    omega
  refine and_congr ?_ ?_
  · rcases url.query with _ | q
    · simp
    · have hshows := shows_query_iff q (url.hides && !includes url.path (unit '@'))
        (a ++ openMask url.hides (pre ++ url.path)) (url.fragment.elim [] fun f =>
          behindMask (url.hides && !includes url.path (unit '@') &&
            !((some q).any fun q => includes q.text (unit '@'))) f.text)
      rw [hlength, append_assoc] at hshows
      simp only [elim_some, mem_some_iff, forall_eq']
      exact hshows
  · rcases hfragment : url.fragment with _ | f
    · simp
    · have hstart : url.fragmentStart = (a ++ openMask url.hides (pre ++ url.path) ++
          url.query.elim [] fun q =>
            behindMask (url.hides && !includes url.path (unit '@')) q.text).length + 1 := by
        rw [fragmentStart, length_append, hlength]
        cases url.query with
        | none => rfl
        | some q =>
          simp only [elim_some, length_behindMask]
          omega
      have hshows := shows_query_iff f (url.hides && !includes url.path (unit '@') &&
          !(url.query.any fun q => includes q.text (unit '@')))
        (a ++ openMask url.hides (pre ++ url.path) ++ url.query.elim [] fun q =>
          behindMask (url.hides && !includes url.path (unit '@')) q.text) []
      rw [← hstart, append_nil, append_assoc, append_assoc] at hshows
      simp only [elim_some, mem_some_iff, forall_eq']
      exact hshows

/-- Behind the path comes a delimiter, or nothing. -/
theorem head?_behind_path (url : Url) : ∀ u ∈ ((url.query.elim [] fun q => unit '?' :: q.text) ++
    url.fragment.elim [] fun f => unit '#' :: f.text).head?, isDelimiter u = true := by
  rcases url.query with _ | q
  · rcases url.fragment with _ | f
    · intro u hu
      cases hu
    · rintro u ⟨⟩
      decide
  · rintro u ⟨⟩
    decide

theorem head?_tail_ne (url : Url) (hauthority : url.authority.isSome = true) :
    url.tail.head? ≠ some (unit '@') := by
  have hpath := url.path_begins
  rw [if_pos hauthority] at hpath
  intro h
  rw [tail] at h
  rcases hcase : url.path with _ | ⟨u, path⟩
  · rw [hcase] at h
    exact absurd (url.head?_behind_path _ h) (by decide)
  · rw [hcase] at h
    obtain rfl : u = unit '@' := some_injective _ h
    exact absurd (hpath (unit '@') (by rw [hcase]; rfl)) (by decide)

theorem tail_ne_slashes (url : Url) (hauthority : url.authority.isSome = false) (t : Str) :
    url.tail ≠ unit '/' :: unit '/' :: t := by
  have hpath := url.path_begins
  rw [if_neg (Bool.eq_false_iff.mp hauthority)] at hpath
  intro h
  rw [tail] at h
  have hbehind := url.head?_behind_path
  rcases hcase : url.path with _ | ⟨u, _ | ⟨u', path⟩⟩
  · rw [hcase, List.nil_append] at h
    exact absurd (hbehind (unit '/') (by rw [h]; rfl)) (by decide)
  · rw [hcase, singleton_append, List.cons.injEq] at h
    exact absurd (hbehind (unit '/') (by rw [h.2]; rfl)) (by decide)
  · rw [hcase, cons_append, cons_append, List.cons.injEq, List.cons.injEq] at h
    rw [hcase, h.1, h.2.1] at hpath
    exact hpath ⟨path, rfl⟩

theorem pathStart_eq (url : Url) : url.pathStart = url.scheme.length + 1 +
    (url.authority.elim 0 fun a =>
      2 + (a.userinfo.elim 0 fun s => s.length + 1) + a.hostPort.length) := by
  have hslashes : (lit "//").length = 2 := by rfl
  rw [pathStart, text]
  rcases url.authority with _ | a
  · simp only [elim_none, List.nil_append, length_append, length_cons]
    omega
  · rcases hu : a.userinfo with _ | s
    · simp only [elim_some, hu, elim_none, List.nil_append, length_append, length_cons, hslashes]
      omega
    · simp only [elim_some, hu, length_append, length_cons, hslashes, length_nil]
      omega

theorem notMem_hostPort (a : Authority) : unit '@' ∉ a.hostPort := fun h =>
  absurd (a.isHostPort_hostPort _ h) (by decide)

theorem text_of_some {url : Url} {a : Authority} (hauthority : url.authority = some a) :
    url.text = url.scheme ++ unit ':' :: unit '/' :: unit '/' ::
      ((a.userinfo.elim [] fun s => s ++ [unit '@']) ++ (a.hostPort ++ url.tail)) := by
  rw [text, hauthority, elim_some, append_assoc, append_assoc]
  rfl

variable {url : Url} {a : Authority}

/-- Without an authority the whole text is searched for values. -/
theorem protects_iff_of_none (hauthority : url.authority = none) :
    Protects previous url ↔ url.Clear := by
  have hhides : url.hides = false := by rw [hides, hauthority]; rfl
  have htext : url.text = url.scheme ++ unit ':' :: url.tail := by
    rw [text, hauthority]
    rfl
  have hscans := scans_url_plain url.scheme_ne_nil url.isSchemeChar_scheme
    (htext ▸ url.oneLine_text) fun t ht =>
      (url.tail_ne_slashes (by rw [hauthority]; rfl) t ht).elim
  refine protects_iff_of_scans previous url (a := []) (url.scheme ++ [unit ':']) ?_ ?_ ?_ ?_
  · rw [htext, hhides, append_assoc]
    exact hscans
  · rw [url.pathStart_eq, hauthority]
    simp
  · rw [hhides]
    exact fun h => by cases h
  · rw [hauthority]
    exact fun _ h => (not_mem_nil h).elim

/-- What comes before an `@` further on is taken for the userinfo. -/
theorem protects_iff_of_hides (hauthority : url.authority = some a)
    (huserinfo : a.userinfo = none) (hmem : unit '@' ∈ url.tail) :
    Protects previous url ↔ url.Clear := by
  have hhides : url.hides = true := by
    rw [hides, hauthority, any_some, huserinfo, includes_eq_true_iff.mpr hmem]
    rfl
  have hhost : unit '@' ∉ a.hostPort := notMem_hostPort a
  obtain ⟨g, r, hg, hcut⟩ := exists_at (mem_append_right a.hostPort hmem)
  have hgne : g ≠ [] := by
    rintro rfl
    rcases hcase : a.hostPort with _ | ⟨u, s⟩
    · rw [hcase, List.nil_append] at hcut
      exact url.head?_tail_ne (by rw [hauthority]; rfl) (by rw [hcut]; rfl)
    · rw [hcase] at hcut hhost
      obtain rfl : u = unit '@' := (List.cons.inj hcut).1
      exact hhost (mem_cons_self ..)
  have htext : url.text =
      url.scheme ++ unit ':' :: unit '/' :: unit '/' :: (g ++ unit '@' :: r) := by
    rw [text_of_some hauthority, huserinfo, elim_none, List.nil_append, hcut]
  have hscans := scans_url_found url.scheme_ne_nil url.isSchemeChar_scheme hg hgne
    (htext ▸ url.oneLine_text)
  refine protects_iff_of_scans previous url (a := List.replicate (url.scheme.length + 3) false)
    a.hostPort ?_ ?_ ?_ ?_
  · have hmask : openMask true (a.hostPort ++ url.tail) =
        List.replicate g.length true ++ false :: textMask r := by
      rw [hcut]
      exact hiddenMask_append hg r
    rw [htext, hhides, hmask]
    rw [append_assoc, append_assoc] at hscans
    exact hscans
  · rw [url.pathStart_eq, hauthority, elim_some, huserinfo, elim_none, length_replicate]
    omega
  · exact fun _ => hhost
  · rw [hauthority, elim_some, huserinfo]
    exact fun _ h => (not_mem_nil h).elim

/-- Nothing is taken for the userinfo. -/
theorem protects_iff_of_plain (hauthority : url.authority = some a)
    (h : a.userinfo = none ∧ unit '@' ∉ url.tail ∨ a.userinfo = some []) :
    Protects previous url ↔ url.Clear := by
  have hhides : url.hides = false := by
    rw [hides, hauthority, any_some]
    rcases h with ⟨h, hmem⟩ | h
    · rw [includes_eq_false_iff.mpr hmem, Bool.and_false]
    · rw [h]
      rfl
  have htext := text_of_some hauthority
  have hscans := scans_url_plain url.scheme_ne_nil url.isSchemeChar_scheme
    (htext ▸ url.oneLine_text) fun t ht => by
      rw [List.cons.injEq, List.cons.injEq] at ht
      rw [← ht.2.2]
      rcases h with ⟨h, hmem⟩ | h
      · refine .inl ?_
        rw [h, elim_none, List.nil_append, mem_append]
        exact fun h => h.elim (notMem_hostPort a) hmem
      · refine .inr ?_
        rw [h]
        rfl
  refine protects_iff_of_scans previous url (a := [])
    (url.scheme ++ unit ':' :: unit '/' :: unit '/' ::
      ((a.userinfo.elim [] fun s => s ++ [unit '@']) ++ a.hostPort)) ?_ ?_ ?_ ?_
  · rw [hhides]
    have happend : url.scheme ++ unit ':' :: unit '/' :: unit '/' ::
        ((a.userinfo.elim [] fun s => s ++ [unit '@']) ++ a.hostPort) ++ url.tail = url.text := by
      rw [htext, append_assoc, cons_append, cons_append, cons_append, append_assoc]
    rw [happend]
    rw [← htext] at hscans
    exact hscans
  · rw [url.pathStart_eq, hauthority]
    rcases h with ⟨h, -⟩ | h
    · simp only [elim_some, h, elim_none, List.nil_append, length_append, length_cons, length_nil]
      omega
    · simp only [elim_some, h, List.nil_append, length_append, length_cons, length_nil]
      omega
  · rw [hhides]
    exact fun h => by cases h
  · rw [hauthority, elim_some]
    rcases h with ⟨h, -⟩ | h
    · rw [h]
      exact fun _ h => (not_mem_nil h).elim
    · rw [h, elim_some, forall_mem_singleton]
      intro i hle hlt
      simp only [length_nil] at hle hlt
      omega

/-- The userinfo is found, and values behind it. -/
theorem protects_iff_of_userinfo (hauthority : url.authority = some a)
    {s : Str} (huserinfo : a.userinfo = some s) (hs : s ≠ []) :
    Protects previous url ↔ url.Clear := by
  have hhides : url.hides = false := by
    rw [hides, hauthority, any_some, huserinfo]
    rfl
  have hnotMem : unit '@' ∉ s := fun h =>
    absurd (a.isUserinfo_userinfo s huserinfo _ h) (by decide)
  have htext : url.text = url.scheme ++ unit ':' :: unit '/' :: unit '/' ::
      (s ++ unit '@' :: (a.hostPort ++ url.tail)) := by
    rw [text_of_some hauthority, huserinfo, elim_some, append_assoc]
    rfl
  have hscans := scans_url_found url.scheme_ne_nil url.isSchemeChar_scheme hnotMem hs
    (htext ▸ url.oneLine_text)
  refine protects_iff_of_scans previous url (a := List.replicate (url.scheme.length + 3) false ++
    List.replicate s.length true ++ [false]) a.hostPort ?_ ?_ ?_ ?_
  · rw [htext, hhides]
    exact hscans
  · rw [url.pathStart_eq, hauthority, elim_some, huserinfo, elim_some, length_append, length_append,
      length_replicate, length_replicate, length_singleton]
    omega
  · rw [hhides]
    exact fun h => by cases h
  · rw [hauthority, elim_some, huserinfo, elim_some, forall_mem_singleton,
      append_assoc, append_assoc]
    have hshows := shows_append_iff (List.replicate (url.scheme.length + 3) false)
      (List.replicate s.length true) ([false] ++ openMask url.hides (a.hostPort ++ url.tail))
    rw [length_replicate, length_replicate] at hshows
    exact hshows.mpr fun x hx => eq_of_mem_replicate hx

end Url

/-- **When the ranges protect a URL**, whatever was analysed before it. -/
theorem protects_iff (previous : List Str) (url : Url) : Protects previous url ↔ url.Clear := by
  rcases hauthority : url.authority with _ | a
  · exact Url.protects_iff_of_none previous hauthority
  · rcases huserinfo : a.userinfo with _ | s
    · by_cases hmem : unit '@' ∈ url.tail
      · exact Url.protects_iff_of_hides previous hauthority huserinfo hmem
      · exact Url.protects_iff_of_plain previous hauthority (.inl ⟨huserinfo, hmem⟩)
    · by_cases hs : s = []
      · exact Url.protects_iff_of_plain previous hauthority (.inr (hs ▸ huserinfo))
      · exact Url.protects_iff_of_userinfo previous hauthority huserinfo hs

/-- `http://h/?x=a?b` -/
def questionInValue : Url where
  scheme := lit "http"
  authority := some ⟨none, lit "h", by simp, forall_mem_of_all (by decide)⟩
  path := lit "/"
  query := some ⟨.pair (lit "x") (lit "a?b"), [], by
    simp only [mem_singleton, forall_eq]
    exact ⟨forall_mem_of_all (by decide), by decide, by decide⟩⟩
  fragment := none
  scheme_ne_nil := by decide
  isSchemeChar_scheme := forall_mem_of_all (by decide)
  isPath_path := forall_mem_of_all (by decide)
  path_begins := by
    rintro u ⟨⟩
    rfl

/-- The range of the value `a?b` ends before the `?`. -/
theorem not_protects_question : ¬ Protects [] questionInValue := by
  have hauthority : questionInValue.authority = some _ := rfl
  rw [Url.protects_iff_of_plain [] hauthority (.inl ⟨rfl, by decide⟩)]
  rintro ⟨hquery, -⟩
  exact absurd (hquery _ rfl) (by decide)

end UrlSensitiveAnalyzer
end DdTrace.Appsec
