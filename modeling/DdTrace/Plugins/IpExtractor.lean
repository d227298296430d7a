import DdTrace.Library.Text

/-!
# The address of the client

`plugins/util/ip_extractor.js` finds the address that a request came from in its headers: the first
public address, in the order of a list of headers and within a header from left to right; failing
that the first private one, and failing that the address of the socket.  Where a header is
configured, that header alone is read, and the socket is not asked.

`net` of Node.js is a parameter.  Of `isIP` only this is used: an address consists of letters,
digits and four more characters, one of IPv4 has dots and no colon, and one of IPv6 has a colon.

## The argument

`findFirstIp` takes each element of a header through a series of text operations and skips it where
what is left is no address.  What it reads of an element is `readChunk`, and the loops over the
elements and over the headers are one search in the addresses that are read, in order
(`findFirstIp_eq`, `extractIp_eq`).

The elements are described by how they are written: `Host` is an address, perhaps with a port or in
brackets, `Element` puts blanks and quotes around it, and `ForwardedElement` is a list of directives
with a `for` among them.  `addressOf_text` and `addressOf_forwarded` say that the address is read,
whatever surrounds it.  An address of IPv6 is written without dots here, and a `for` directive
without blanks in front of it.

* `first_address`: the address that is found.
-/

namespace DdTrace.Plugins.IpExtractor

open Library List Option Str

/-! ## The code -/

inductive Family where
  | ipv4
  | ipv6
  deriving DecidableEq

/-- What is used of `net`. -/
structure Net where
  /-- `none` is `0`. -/
  isIP : Str → Option Family
  /-- `check` of a `BlockList` to which these subnets were added. -/
  check : List (Str × ℕ × Family) → Str → Family → Bool

def FORWARED_HEADER_NAME : Str := lit "forwarded"

def ipHeaderList : List Str :=
  [lit "x-forwarded-for", lit "x-real-ip", lit "true-client-ip", lit "x-client-ip",
    FORWARED_HEADER_NAME, lit "forwarded-for", lit "x-cluster-client-ip", lit "fastly-client-ip",
    lit "cf-connecting-ip", lit "cf-connecting-ipv6"]

/-- The address and the prefix of each block. -/
def privateCIDRs : List (Str × ℕ) :=
  [(lit "127.0.0.0", 8), (lit "10.0.0.0", 8), (lit "172.16.0.0", 12), (lit "192.168.0.0", 16),
    (lit "169.254.0.0", 16), (lit "100.65.0.0", 10), (lit "::1", 128), (lit "fec0::", 10),
    (lit "fe80::", 10), (lit "fc00::", 7), (lit "fd00::", 8)]

namespace Net

/-- `privateIPMatcher.check` -/
def isPrivate (net : Net) (ip : Str) (type : Family) : Bool :=
  net.check (privateCIDRs.map fun cidr =>
      (cidr.1, cidr.2, if net.isIP cidr.1 = some .ipv6 then .ipv6 else .ipv4)) ip type

end Net

/-- What follows the search for a closing bracket. -/
def cleanBrackets (input : Str) : Str :=
  match Str.cut (unit ']') input with
  | some (front, _) =>
    if input.head? = some (unit '[') then Str.trim (front.drop 1) else input
  | none => input

def cleanIp (input : Str) : Str :=
  match Str.cut (unit ':') input with
  | some (front, _) => if includes input (unit '.') then Str.trim front else cleanBrackets input
  | none => cleanBrackets input

/-- `toLowerCase().startsWith('for=')`.  No other character is lowered to one of these. -/
def startsWithFor : Str → Bool
  | f :: o :: r :: e :: _ =>
    (f == unit 'f' || f == unit 'F') && (o == unit 'o' || o == unit 'O') &&
      (r == unit 'r' || r == unit 'R') && e == unit '='
  | _ => false

/-- The value of the first `for` directive, or the chunk where there is none. -/
def forDirective (chunk : Str) : Str :=
  match (Str.split (unit ';') chunk).find? fun subchunk => startsWithFor (Str.trim subchunk) with
  | some directive => directive.drop 4
  | none => chunk

/-- The quotes around a chunk are removed, and the blanks inside them. -/
def unquote (chunk : Str) : Str :=
  if chunk.head? = some (unit '"') ∧ chunk.getLast? = some (unit '"') then
    Str.trim (chunk.drop 1).dropLast
  else chunk

/-- A chunk as it is tested for an address. -/
def clean (isForwardedHeader : Bool) (chunk : Str) : Str :=
  cleanIp (unquote (Str.trim (if isForwardedHeader then forDirective chunk else chunk)))

/-- The `result` of `findFirstIp`: its `public` and its `private` member. -/
structure Result where
  publicIp : Option Str
  privateIp : Option Str

/-- The loop of `findFirstIp`. -/
def findInChunks (net : Net) (isForwardedHeader : Bool) : List Str → Result → Result
  | [], result => result
  | chunk :: chunks, result =>
    if clean isForwardedHeader chunk = [] then findInChunks net isForwardedHeader chunks result
    else
      match net.isIP (clean isForwardedHeader chunk) with
      | none => findInChunks net isForwardedHeader chunks result
      | some type =>
        if net.isPrivate (clean isForwardedHeader chunk) type then
          findInChunks net isForwardedHeader chunks
            { result with privateIp := result.privateIp.or (some (clean isForwardedHeader chunk)) }
        else { result with publicIp := some (clean isForwardedHeader chunk) }

def findFirstIp (net : Net) (str : Str) (isForwardedHeader : Bool) : Result :=
  if str = [] then ⟨none, none⟩
  else findInChunks net isForwardedHeader (Str.split (unit ',') str) ⟨none, none⟩

structure Config where
  /-- Empty where it is not set. -/
  clientIpHeader : Str

structure Request where
  /-- The headers whose value is a string. -/
  headers : Option (Str → Option Str)
  remoteAddress : Option Str

/-- The loop over the headers: the public address it returns, else the private one it has found. -/
def findInHeaders (net : Net) (headers : Str → Option Str) :
    List Str → Option Str → Option Str × Option Str
  | [], firstPrivateIp => (none, firstPrivateIp)
  | ipHeaderName :: names, firstPrivateIp =>
    match headers ipHeaderName with
    | none => findInHeaders net headers names firstPrivateIp
    | some header =>
      let ip := findFirstIp net header (ipHeaderName = FORWARED_HEADER_NAME)
      match ip.publicIp with
      | some publicIp => (some publicIp, firstPrivateIp)
      | none => findInHeaders net headers names (firstPrivateIp.or ip.privateIp)

def extractIp (net : Net) (config : Config) (req : Request) : Option Str :=
  if config.clientIpHeader ≠ [] then
    match req.headers.bind fun headers => headers config.clientIpHeader with
    | none => none
    | some header =>
      let ip := findFirstIp net header (config.clientIpHeader = FORWARED_HEADER_NAME)
      ip.publicIp.or ip.privateIp
  else
    let found := (req.headers.map fun headers => findInHeaders net headers ipHeaderList none).getD
      (none, none)
    found.1.or (found.2.or req.remoteAddress)

/-! ## One search -/

variable {net : Net}

/-- The address that is read of a chunk. -/
def readChunk (net : Net) (isForwardedHeader : Bool) (chunk : Str) : Option Str :=
  if clean isForwardedHeader chunk ≠ [] ∧ (net.isIP (clean isForwardedHeader chunk)).isSome then
    some (clean isForwardedHeader chunk)
  else none

def Net.isPublic (net : Net) (ip : Str) : Bool :=
  (net.isIP ip).any fun type => !net.isPrivate ip type

/-- The addresses that are read of a header. -/
def readHeader (net : Net) (isForwardedHeader : Bool) (str : Str) : List Str :=
  (Str.split (unit ',') str).filterMap (readChunk net isForwardedHeader)

variable (isForwardedHeader : Bool)

/-- The loop looks for the first public address, and for the first address that is not public. -/
theorem findInChunks_eq (chunks : List Str) (privateIp : Option Str) :
    let read := chunks.filterMap (readChunk net isForwardedHeader)
    let result := findInChunks net isForwardedHeader chunks ⟨none, privateIp⟩
    result.publicIp = read.find? net.isPublic ∧ (result.publicIp = none →
      result.privateIp = privateIp.or (read.find? fun ip => !net.isPublic ip)) := by
  induction chunks generalizing privateIp with
  | nil => exact ⟨rfl, fun _ => (or_none).symm⟩
  | cons chunk chunks ih =>
    rw [findInChunks, filterMap_cons]
    by_cases hempty : clean isForwardedHeader chunk = []
    · have hread : readChunk net isForwardedHeader chunk = none := if_neg fun h => h.1 hempty
      rw [if_pos hempty, hread]
      exact ih privateIp
    · rw [if_neg hempty]
      rcases htype : net.isIP (clean isForwardedHeader chunk) with _ | type
      · have hread : readChunk net isForwardedHeader chunk = none :=
          if_neg fun h => by rw [htype] at h; exact Bool.false_ne_true h.2
        rw [hread]
        exact ih privateIp
      · have hread : readChunk net isForwardedHeader chunk =
            some (clean isForwardedHeader chunk) := if_pos ⟨hempty, by rw [htype]; rfl⟩
        rw [hread]
        have hpublic : net.isPublic (clean isForwardedHeader chunk) =
            !net.isPrivate (clean isForwardedHeader chunk) type := by
          rw [Net.isPublic, htype]
          rfl
        by_cases hprivate : net.isPrivate (clean isForwardedHeader chunk) type = true
        · simp only [hprivate, if_true, find?_cons, hpublic, Bool.not_true, Bool.not_false]
          obtain ⟨hfound, hrest⟩ := ih (privateIp.or (some (clean isForwardedHeader chunk)))
          refine ⟨hfound, fun hnone => ?_⟩
          rw [hrest hnone, Option.or_assoc, some_or]
        · simp only [hprivate, if_false, find?_cons, hpublic, Bool.not_false, Bool.false_eq_true]
          exact ⟨trivial, fun h => absurd h (some_ne_none _)⟩

theorem readChunk_nil : readChunk net isForwardedHeader [] = none := by
  cases isForwardedHeader <;> rfl

theorem readHeader_nil : readHeader net isForwardedHeader [] = [] := by
  show [[]].filterMap (readChunk net isForwardedHeader) = []
  rw [filterMap_cons, readChunk_nil]
  rfl

theorem findFirstIp_eq (str : Str) (isForwardedHeader : Bool) :
    (findFirstIp net str isForwardedHeader).publicIp =
        (readHeader net isForwardedHeader str).find? net.isPublic ∧
      ((findFirstIp net str isForwardedHeader).publicIp = none →
        (findFirstIp net str isForwardedHeader).privateIp =
          (readHeader net isForwardedHeader str).find? fun ip => !net.isPublic ip) := by
  unfold findFirstIp
  by_cases hstr : str = []
  · rw [hstr, readHeader_nil]
    exact ⟨rfl, fun _ => rfl⟩
  · rw [if_neg hstr]
    have h := @findInChunks_eq net isForwardedHeader (Str.split (unit ',') str) none
    exact h

/-- The addresses that are read of the headers with these names, in order. -/
def readHeaders (net : Net) (headers : Str → Option Str) (names : List Str) : List Str :=
  names.flatMap fun name =>
    ((headers name).map (readHeader net (name = FORWARED_HEADER_NAME))).getD []

theorem findInHeaders_eq (headers : Str → Option Str) (names : List Str)
    (firstPrivateIp : Option Str) :
    (findInHeaders net headers names firstPrivateIp).1 =
        (readHeaders net headers names).find? net.isPublic ∧
      ((findInHeaders net headers names firstPrivateIp).1 = none →
        (findInHeaders net headers names firstPrivateIp).2 = firstPrivateIp.or
            ((readHeaders net headers names).find? fun ip => !net.isPublic ip)) := by
  induction names generalizing firstPrivateIp with
  | nil => exact ⟨rfl, fun _ => (or_none).symm⟩
  | cons name names ih =>
    rw [findInHeaders, readHeaders, flatMap_cons]
    rcases hheader : headers name with _ | header
    · exact ih firstPrivateIp
    · obtain ⟨hpublic, hprivate⟩ :=
        @findFirstIp_eq net header (name = FORWARED_HEADER_NAME)
      simp only [map_some, getD_some, find?_append]
      rw [← hpublic]
      rcases hfirst : (findFirstIp net header (name = FORWARED_HEADER_NAME)).publicIp with _ | ip
      · obtain ⟨hrest, hrest'⟩ := ih (firstPrivateIp.or
          (findFirstIp net header (name = FORWARED_HEADER_NAME)).privateIp)
        refine ⟨hrest, fun hnone => ?_⟩
        rw [hrest' hnone, hprivate hfirst, Option.or_assoc]
        rfl
      · exact ⟨rfl, fun h => absurd h (some_ne_none _)⟩

/-- The headers that are read. -/
def consulted (config : Config) : List Str :=
  if config.clientIpHeader ≠ [] then [config.clientIpHeader] else ipHeaderList

/-- The address where no header has one. -/
def fallback (config : Config) (req : Request) : Option Str :=
  if config.clientIpHeader ≠ [] then none else req.remoteAddress

def Request.header (req : Request) (name : Str) : Option Str :=
  req.headers.bind fun headers => headers name

/-- **The search.**  The first public address of those that are read, else the first private one. -/
theorem extractIp_eq (net : Net) (config : Config) (req : Request) : extractIp net config req =
      ((readHeaders net req.header (consulted config)).find? net.isPublic).or
        (((readHeaders net req.header (consulted config)).find? fun ip => !net.isPublic ip).or
          (fallback config req)) := by
  unfold extractIp consulted fallback
  by_cases hconfig : config.clientIpHeader ≠ []
  · rw [if_pos hconfig, if_pos hconfig, if_pos hconfig, or_none, readHeaders,
      flatMap_cons, flatMap_nil, append_nil]
    have hheader : (req.headers.bind fun headers => headers config.clientIpHeader) =
        req.header config.clientIpHeader := rfl
    rw [hheader]
    rcases req.header config.clientIpHeader with _ | header
    · rfl
    · obtain ⟨hpublic, hprivate⟩ :=
        @findFirstIp_eq net header (config.clientIpHeader = FORWARED_HEADER_NAME)
      simp only [map_some, getD_some]
      rw [← hpublic]
      rcases hfirst : (findFirstIp net header
        (config.clientIpHeader = FORWARED_HEADER_NAME)).publicIp with _ | ip
      · rw [hprivate hfirst]
      · rfl
  · rw [if_neg hconfig, if_neg hconfig, if_neg hconfig]
    rcases hheaders : req.headers with _ | headers
    · have hnone : readHeaders net req.header ipHeaderList = [] := by
        refine flatMap_eq_nil_iff.mpr fun name _ => ?_
        rw [Request.header, hheaders]
        rfl
      rw [hnone]
      rfl
    · have hsome : req.header = headers := by
        funext name
        rw [Request.header, hheaders]
        rfl
      obtain ⟨hpublic, hprivate⟩ := @findInHeaders_eq net headers ipHeaderList none
      rw [hsome, ← hpublic]
      simp only [map_some, getD_some]
      rcases hfirst : (findInHeaders net headers ipHeaderList none).1 with _ | ip
      · rw [hprivate hfirst]
        simp only [none_or]
      · rfl

/-! ## Elements of a header -/

/-- What an address consists of. -/
def isAddressUnit (u : UInt16) : Bool :=
  unit '0' ≤ u && u ≤ unit '9' || unit 'a' ≤ u && u ≤ unit 'z' || unit 'A' ≤ u && u ≤ unit 'Z' ||
    u == unit '.' || u == unit ':' || u == unit '%' || u == unit '-'

/-- What is used of `net.isIP`. -/
structure IsIP (isIP : Str → Option Family) : Prop where
  units : ∀ s type, isIP s = some type → ∀ u ∈ s, isAddressUnit u = true
  ipv4 : ∀ s, isIP s = some .ipv4 → unit '.' ∈ s ∧ unit ':' ∉ s
  ipv6 : ∀ s, isIP s = some .ipv6 → unit ':' ∈ s

def IsBlank (s : Str) : Prop := ∀ u ∈ s, Str.isSpace u = true

def isDigit (u : UInt16) : Bool := unit '0' ≤ u && u ≤ unit '9'

/-- An address, perhaps with a port or in brackets. -/
inductive Host where
  | ipv4 (address : Str)
  | ipv4Port (address blanks port : Str)
  | ipv4Brackets (before address after : Str)
  | ipv6 (address : Str)
  | ipv6Brackets (before address after : Str) (port : Option Str)

namespace Host

def text : Host → Str
  | .ipv4 address => address
  | .ipv4Port address blanks port => address ++ blanks ++ unit ':' :: port
  | .ipv4Brackets before address after =>
    (unit '[' :: (before ++ address ++ after)) ++ unit ']' :: []
  | .ipv6 address => address
  | .ipv6Brackets before address after port =>
    (unit '[' :: (before ++ address ++ after)) ++
      unit ']' :: (port.map fun p => unit ':' :: p).getD []

def address : Host → Str
  | .ipv4 address => address
  | .ipv4Port address _ _ => address
  | .ipv4Brackets _ address _ => address
  | .ipv6 address => address
  | .ipv6Brackets _ address _ _ => address

/-- The address is one, an IPv6 address without dots, and a port is a number. -/
def Valid (isIP : Str → Option Family) : Host → Prop
  | .ipv4 address => isIP address = some .ipv4
  | .ipv4Port address blanks port =>
    isIP address = some .ipv4 ∧ IsBlank blanks ∧ port.all isDigit = true
  | .ipv4Brackets before address after =>
    isIP address = some .ipv4 ∧ IsBlank before ∧ IsBlank after
  | .ipv6 address => isIP address = some .ipv6 ∧ unit '.' ∉ address
  | .ipv6Brackets before address after port =>
    (isIP address = some .ipv6 ∧ unit '.' ∉ address) ∧ IsBlank before ∧ IsBlank after ∧
      ∀ p ∈ port, p.all isDigit = true

end Host

/-- An element of a list: an address with blanks around it and perhaps quotes, or a text that cannot
be an address. -/
inductive Element where
  | bare (before : Str) (host : Host) (after : Str)
  | quoted (before left : Str) (host : Host) (right after : Str)
  | other (s : Str)

namespace Element

def text : Element → Str
  | .bare before host after => before ++ host.text ++ after
  | .quoted before left host right after =>
    before ++ ((unit '"' :: (left ++ host.text ++ right)) ++ [unit '"']) ++ after
  | .other s => s

def address : Element → Option Str
  | .bare _ host _ => some host.address
  | .quoted _ _ host _ _ => some host.address
  | .other _ => none

/-- What cannot be an address has neither a dot nor a colon. -/
def Valid (isIP : Str → Option Family) : Element → Prop
  | .bare before host after => IsBlank before ∧ host.Valid isIP ∧ IsBlank after
  | .quoted before left host right after =>
    IsBlank before ∧ IsBlank left ∧ host.Valid isIP ∧ IsBlank right ∧ IsBlank after
  | .other s => unit '.' ∉ s ∧ unit ':' ∉ s

end Element

/-- An element of the header `Forwarded`: its directives, with the first `for` among them, or
directives that start with the name of one that is not `for`. -/
inductive ForwardedElement where
  | forDirective (before : List Str) (name : Str) (value : Element) (after : List Str)
  | without (name rest : Str)

namespace ForwardedElement

def text : ForwardedElement → Str
  | .forDirective before name value after =>
    Str.join (unit ';') (before ++ (name ++ unit '=' :: value.text) :: after)
  | .without name rest => name ++ unit '=' :: rest

def address : ForwardedElement → Option Str
  | .forDirective _ _ value _ => value.address
  | .without _ _ => none

/-- No blanks stand in front of the `for`. -/
def Valid (isIP : Str → Option Family) : ForwardedElement → Prop
  | .forDirective before name value after =>
    (∀ d ∈ before, unit ';' ∉ d ∧ startsWithFor (Str.trim d) = false) ∧
      (name.length = 3 ∧ startsWithFor (name ++ [unit '=']) = true) ∧
      (value.Valid isIP ∧ unit ';' ∉ value.text) ∧ ∀ d ∈ after, unit ';' ∉ d
  | .without name rest =>
    (name ≠ [] ∧ ∀ u ∈ name, isAddressUnit u = true ∧ u ≠ unit ':') ∧
      ∀ d ∈ Str.split (unit ';') (name ++ unit '=' :: rest), startsWithFor (Str.trim d) = false

end ForwardedElement

/-! ## Reading an address -/

variable {isIP : Str → Option Family}

variable {s : Str} {u : UInt16} {name : Str} {v : UInt16} {type : Family} {input : Str}
  {host : Host}

theorem toNat_of_isAddressUnit (h : isAddressUnit u = true) :
    0x20 < u.toNat ∧ u.toNat < 0x7F := by
  have hunit : ∀ c : Char, (unit c ≤ u ↔ (unit c).toNat ≤ u.toNat) ∧
      (u ≤ unit c ↔ u.toNat ≤ (unit c).toNat) :=
    fun c => ⟨UInt16.le_iff_toNat_le, UInt16.le_iff_toNat_le⟩
  simp only [isAddressUnit, Bool.or_eq_true, Bool.and_eq_true, decide_eq_true_eq, beq_iff_eq,
    hunit] at h
  have hdigits : (unit '0').toNat = 48 ∧ (unit '9').toNat = 57 := by decide
  have hlower : (unit 'a').toNat = 97 ∧ (unit 'z').toNat = 122 := by decide
  have hupper : (unit 'A').toNat = 65 ∧ (unit 'Z').toNat = 90 := by decide
  rcases h with (((((h | h) | h) | rfl) | rfl) | rfl) | rfl
  · omega
  · omega
  · omega
  all_goals decide

theorem isSpace_of_isAddressUnit (h : isAddressUnit u = true) :
    Str.isSpace u = false := by
  have hbounds := toNat_of_isAddressUnit h
  unfold Str.isSpace
  simp
  omega

/-- What an address is not made of. -/
theorem ne_of_isAddressUnit (h : isAddressUnit u = true)
    (hv : isAddressUnit v = false) : u ≠ v := by
  rintro rfl
  rw [h] at hv
  exact absurd hv.symm Bool.false_ne_true

theorem IsIP.notMem (hip : IsIP isIP) (h : isIP s = some type)
    (hv : isAddressUnit v = false) : v ∉ s :=
  fun hmem => ne_of_isAddressUnit (hip.units s type h v hmem) hv rfl

theorem IsIP.ne_nil (hip : IsIP isIP) (h : isIP s = some type) :
    s ≠ [] := by
  rintro rfl
  cases type with
  | ipv4 => exact absurd (hip.ipv4 _ h).1 not_mem_nil
  | ipv6 => exact absurd (hip.ipv6 _ h) not_mem_nil

theorem IsIP.isSpace (hip : IsIP isIP) (h : isIP s = some type) : ∀ u ∈ s, Str.isSpace u = false :=
  fun u hu => isSpace_of_isAddressUnit (hip.units s type h u hu)

theorem IsBlank.notMem (h : IsBlank s) (hv : Str.isSpace v = false) : v ∉ s :=
  fun hmem => Bool.false_ne_true (hv.symm.trans (h v hmem))

theorem isBlank_nil : IsBlank [] := fun _ hu => absurd hu not_mem_nil

theorem notMem_of_all_isDigit (h : s.all isDigit = true) (hv : isDigit v = false) : v ∉ s :=
  fun hmem => Bool.false_ne_true (hv.symm.trans (List.all_eq_true.mp h v hmem))

/-- A text without blanks, and blanks around it. -/
theorem trim_blanks {before after : Str} (hbefore : IsBlank before) (hafter : IsBlank after)
    (hs : ∀ u ∈ s, Str.isSpace u = false) : Str.trim (before ++ s ++ after) = s :=
  trim_pad hbefore hafter (fun u hu => hs u (mem_of_mem_head? hu))
    fun u hu => hs u (mem_of_mem_getLast? hu)

theorem cleanIp_of_notMem (h : unit '.' ∉ input) :
    cleanIp input = cleanBrackets input := by
  have hincludes : includes input (unit '.') = false := includes_eq_false_iff.mpr h
  unfold cleanIp
  rcases Str.cut (unit ':') input with _ | ⟨front, rest⟩
  · rfl
  · simp only [hincludes, Bool.false_eq_true, if_false]

theorem cleanBrackets_of_notMem (h : unit ']' ∉ input) :
    cleanBrackets input = input := by
  rw [cleanBrackets, cut_eq_none_iff.mpr h]

theorem cleanBrackets_append (hip : IsIP isIP) {before address after : Str}
    (hbefore : IsBlank before) (h : isIP address = some type) (hafter : IsBlank after)
    (rest : Str) :
    cleanBrackets ((unit '[' :: (before ++ address ++ after)) ++ unit ']' :: rest) = address := by
  have hinside : unit ']' ∉ unit '[' :: (before ++ address ++ after) := by
    simp only [mem_cons, mem_append, not_or]
    exact ⟨by decide, ⟨hbefore.notMem (by decide), hip.notMem h (by decide)⟩,
      hafter.notMem (by decide)⟩
  rw [cleanBrackets, cut_append hinside]
  exact trim_blanks hbefore hafter (hip.isSpace h)

/-- **A port and brackets are taken off.** -/
theorem cleanIp_text (hip : IsIP isIP) (h : host.Valid isIP) :
    cleanIp host.text = host.address := by
  cases host with
  | ipv4 address =>
    rw [Host.text, cleanIp, cut_eq_none_iff.mpr (hip.ipv4 _ h).2]
    exact cleanBrackets_of_notMem (hip.notMem h (by decide))
  | ipv4Port address blanks port =>
    obtain ⟨h, hblanks, hport⟩ := h
    obtain ⟨hdot, hcolon⟩ := hip.ipv4 _ h
    have hfront : unit ':' ∉ address ++ blanks := by
      rw [mem_append, not_or]
      exact ⟨hcolon, hblanks.notMem (by decide)⟩
    have hincludes : includes (address ++ blanks ++ unit ':' :: port) (unit '.') = true :=
      includes_eq_true_iff.mpr (mem_append_left _ (mem_append_left _ hdot))
    rw [Host.text, cleanIp, cut_append hfront]
    simp only [hincludes, if_true]
    exact trim_blanks isBlank_nil hblanks (hip.isSpace h)
  | ipv4Brackets before address after =>
    obtain ⟨h, hbefore, hafter⟩ := h
    have hcolon : unit ':' ∉ (Host.ipv4Brackets before address after).text := by
      simp only [Host.text, mem_append, mem_cons, not_or]
      exact ⟨⟨by decide, ⟨hbefore.notMem (by decide), (hip.ipv4 _ h).2⟩,
        hafter.notMem (by decide)⟩, by decide, not_mem_nil⟩
    rw [cleanIp, cut_eq_none_iff.mpr hcolon]
    exact cleanBrackets_append hip hbefore h hafter []
  | ipv6 address =>
    exact (cleanIp_of_notMem h.2).trans (cleanBrackets_of_notMem (hip.notMem h.1 (by decide)))
  | ipv6Brackets before address after port =>
    obtain ⟨⟨h, hdot⟩, hbefore, hafter, hport⟩ := h
    have hnodot : unit '.' ∉ (Host.ipv6Brackets before address after port).text := by
      simp only [Host.text, mem_append, mem_cons, not_or]
      refine ⟨⟨by decide, ⟨hbefore.notMem (by decide), hdot⟩, hafter.notMem (by decide)⟩,
        by decide, ?_⟩
      rcases port with _ | p
      · exact not_mem_nil
      · rw [map_some, getD_some, mem_cons, not_or]
        exact ⟨by decide, notMem_of_all_isDigit (hport p rfl) (by decide)⟩
    rw [cleanIp_of_notMem hnodot]
    exact cleanBrackets_append hip hbefore h hafter _

theorem isAddressUnit_of_isDigit (h : isDigit u = true) : isAddressUnit u = true := by
  unfold isDigit at h
  unfold isAddressUnit
  rw [h]
  rfl

/-- The last character of a text stands behind one that is not the last. -/
theorem mem_cons_of_getLast? {l m : Str} {c : UInt16} (h : u ∈ (l ++ c :: m).getLast?) :
    u ∈ c :: m := by
  have hne : (c :: m).getLast? = some ((c :: m).getLast (cons_ne_nil c m)) :=
    getLast?_eq_some_getLast _
  rw [getLast?_append, hne] at h
  rw [← some.inj h]
  exact getLast_mem _

theorem isSpace_port {port : Str} (h : port.all isDigit = true) :
    ∀ u ∈ unit ':' :: port, Str.isSpace u = false := by
  intro u hu
  rcases mem_cons.mp hu with rfl | hu
  · decide
  · exact isSpace_of_isAddressUnit (isAddressUnit_of_isDigit (List.all_eq_true.mp h u hu))

/-- A host starts and ends with characters that are no blanks, and does not start with a quote. -/
theorem ends_text (hip : IsIP isIP) (h : host.Valid isIP) :
    host.text ≠ [] ∧ (∀ u ∈ host.text.head?, Str.isSpace u = false ∧ u ≠ unit '"') ∧
      ∀ u ∈ host.text.getLast?, Str.isSpace u = false := by
  have haddress : ∀ {a : Str} {type : Family} {t : Str}, isIP a = some type →
      ∀ u ∈ (a ++ t).head?, Str.isSpace u = false ∧ u ≠ unit '"' := by
    intro a type t ha u hu
    obtain ⟨c, a', rfl⟩ := exists_cons_of_ne_nil (hip.ne_nil ha)
    obtain rfl : c = u := some.inj hu
    have hc := hip.units _ _ ha c mem_cons_self
    exact ⟨isSpace_of_isAddressUnit hc, ne_of_isAddressUnit hc (by decide)⟩
  cases host with
  | ipv4 address =>
    refine ⟨hip.ne_nil h, ?_, fun u hu => hip.isSpace h u (mem_of_mem_getLast? hu)⟩
    have hhead := haddress (t := []) h
    rwa [append_nil] at hhead
  | ipv4Port address blanks port =>
    obtain ⟨h, -, hport⟩ := h
    refine ⟨by simp [Host.text], ?_, fun u hu => isSpace_port hport u (mem_cons_of_getLast? hu)⟩
    have hhead := haddress (t := blanks ++ unit ':' :: port) h
    rwa [← append_assoc] at hhead
  | ipv4Brackets before address after =>
    refine ⟨by simp [Host.text], ?_, ?_⟩
    · intro u hu
      obtain rfl : unit '[' = u := some.inj hu
      decide
    · intro u hu
      obtain rfl := mem_singleton.mp (mem_cons_of_getLast? hu)
      decide
  | ipv6 address =>
    refine ⟨hip.ne_nil h.1, ?_, fun u hu => hip.isSpace h.1 u (mem_of_mem_getLast? hu)⟩
    have hhead := haddress (t := []) h.1
    rwa [append_nil] at hhead
  | ipv6Brackets before address after port =>
    refine ⟨by simp [Host.text], ?_, ?_⟩
    · intro u hu
      obtain rfl : unit '[' = u := some.inj hu
      decide
    · intro u hu
      rcases mem_cons.mp (mem_cons_of_getLast? hu) with rfl | hu
      · decide
      · rcases port with _ | p
        · exact absurd hu not_mem_nil
        · exact isSpace_port (h.2.2.2 p rfl) u hu

/-! ## Reading an element -/

theorem mem_of_mem_cleanBrackets (h : u ∈ cleanBrackets input) :
    u ∈ input := by
  unfold cleanBrackets at h
  rcases hcut : Str.cut (unit ']') input with _ | ⟨front, rest⟩
  · rwa [hcut] at h
  · rw [hcut] at h
    dsimp only at h
    split at h
    · rw [(cut_eq_some hcut).1]
      exact mem_append_left _ (mem_of_mem_drop (mem_of_mem_trim h))
    · exact h

theorem mem_of_mem_cleanIp (h : u ∈ cleanIp input) : u ∈ input := by
  unfold cleanIp at h
  rcases hcut : Str.cut (unit ':') input with _ | ⟨front, rest⟩
  · rw [hcut] at h
    exact mem_of_mem_cleanBrackets h
  · rw [hcut] at h
    dsimp only at h
    split at h
    · rw [(cut_eq_some hcut).1]
      exact mem_append_left _ (mem_of_mem_trim h)
    · exact mem_of_mem_cleanBrackets h

theorem mem_of_mem_unquote {chunk : Str} (h : u ∈ unquote chunk) : u ∈ chunk := by
  unfold unquote at h
  split at h
  · exact mem_of_mem_drop (dropLast_subset _ (mem_of_mem_trim h))
  · exact h

/-- A text, where it is an address. -/
def addressOf (isIP : Str → Option Family) (s : Str) : Option Str :=
  if s ≠ [] ∧ (isIP s).isSome then some s else none

theorem addressOf_address (hip : IsIP isIP) (h : host.Valid isIP) :
    addressOf isIP host.address = some host.address := by
  have htype : ∃ type, isIP host.address = some type := by
    cases host with
    | ipv4 address => exact ⟨_, h⟩
    | ipv4Port address blanks port | ipv4Brackets before address after => exact ⟨_, h.1⟩
    | ipv6 address => exact ⟨_, h.1⟩
    | ipv6Brackets before address after port => exact ⟨_, h.1.1⟩
  obtain ⟨type, htype⟩ := htype
  exact if_pos ⟨hip.ne_nil htype, by rw [htype]; rfl⟩

theorem addressOf_eq_none (h : isIP s = none) : addressOf isIP s = none :=
  if_neg fun hs => by rw [h] at hs; exact Bool.false_ne_true hs.2

/-- Only what has a dot or a colon is an address. -/
theorem IsIP.eq_none (hip : IsIP isIP) (hdot : unit '.' ∉ s) (hcolon : unit ':' ∉ s) :
    isIP s = none := by
  rcases htype : isIP s with _ | type
  · rfl
  · cases type with
    | ipv4 => exact absurd (hip.ipv4 s htype).1 hdot
    | ipv6 => exact absurd (hip.ipv6 s htype) hcolon

theorem unquote_text (hip : IsIP isIP) (h : host.Valid isIP) :
    unquote host.text = host.text := by
  obtain ⟨-, hhead, -⟩ := ends_text hip h
  exact if_neg fun hquotes => (hhead _ hquotes.1).2 rfl

/-- **Blanks and quotes are taken off.**  What is left of an element is its address. -/
theorem addressOf_text (hip : IsIP isIP) {e : Element} (h : e.Valid isIP) :
    addressOf isIP (cleanIp (unquote (Str.trim e.text))) = e.address := by
  cases e with
  | bare before host after =>
    obtain ⟨hbefore, hhost, hafter⟩ := h
    obtain ⟨-, hhead, hlast⟩ := ends_text hip hhost
    rw [Element.text, trim_pad hbefore hafter (fun u hu => (hhead u hu).1) hlast,
      unquote_text hip hhost, cleanIp_text hip hhost]
    exact addressOf_address hip hhost
  | quoted before left host right after =>
    obtain ⟨hbefore, hleft, hhost, hright, hafter⟩ := h
    obtain ⟨-, hhead, hlast⟩ := ends_text hip hhost
    have hquote : Str.isSpace (unit '"') = false := by decide
    have htrim : Str.trim (Element.quoted before left host right after).text =
        (unit '"' :: (left ++ host.text ++ right)) ++ [unit '"'] := by
      refine trim_pad hbefore hafter (fun u hu => ?_) fun u hu => ?_
      · obtain rfl : unit '"' = u := some.inj hu
        exact hquote
      · rw [getLast?_concat] at hu
        obtain rfl : unit '"' = u := some.inj hu
        exact hquote
    have hunquote : unquote ((unit '"' :: (left ++ host.text ++ right)) ++ [unit '"']) =
        host.text := by
      rw [unquote, if_pos ⟨rfl, getLast?_concat⟩, cons_append, drop_succ_cons,
        drop_zero, dropLast_concat]
      exact trim_pad hleft hright (fun u hu => (hhead u hu).1) hlast
    rw [htrim, hunquote, cleanIp_text hip hhost]
    exact addressOf_address hip hhost
  | other s =>
    refine addressOf_eq_none (hip.eq_none (fun hdot => h.1 ?_) fun hcolon => h.2 ?_)
    · exact mem_of_mem_trim (mem_of_mem_unquote (mem_of_mem_cleanIp hdot))
    · exact mem_of_mem_trim (mem_of_mem_unquote (mem_of_mem_cleanIp hcolon))

/-! ## Reading an element of the header `Forwarded` -/

/-- A name and a sign of equality are not trimmed, whatever stands behind them. -/
theorem exists_trim_append {c : UInt16} (hs : ∀ u ∈ s ++ [c], Str.isSpace u = false)
    (rest : Str) : ∃ t, Str.trim (s ++ c :: rest) = s ++ c :: t := by
  have hstart : Str.trimStart (s ++ c :: rest) = s ++ c :: rest := by
    refine trimStart_of_head fun u hu => hs u ?_
    rcases s with _ | ⟨x, s⟩
    · rw [← some.inj hu]
      exact mem_singleton.mpr rfl
    · rw [← some.inj hu]
      exact mem_cons_self
  rw [Str.trim, hstart]
  clear hstart
  induction rest using List.reverseRecOn with
  | nil => exact ⟨[], trimEnd_of_getLast fun u hu => hs u (mem_of_mem_getLast? hu)⟩
  | append_singleton rest x ih =>
    rw [← cons_append, ← append_assoc, rdropWhile_concat]
    by_cases hx : Str.isSpace x = true
    · rw [if_pos hx]
      exact ih
    · rw [if_neg hx]
      exact ⟨rest ++ [x], by simp⟩

theorem startsWithFor_append {t : Str} (hlength : s.length = 3) (c : UInt16) :
    startsWithFor (s ++ c :: t) = startsWithFor (s ++ [c]) := by
  match s, hlength with
  | [f, o, r], _ => rfl

/-- The name of the directive consists of letters. -/
theorem isAddressUnit_of_startsWithFor (hlength : name.length = 3)
    (h : startsWithFor (name ++ [unit '=']) = true) : ∀ u ∈ name, isAddressUnit u = true := by
  match name, hlength with
  | [f, o, r], _ =>
    simp only [cons_append, List.nil_append, startsWithFor, Bool.and_eq_true,
      Bool.or_eq_true, beq_iff_eq] at h
    obtain ⟨⟨⟨hf, ho⟩, hr⟩, -⟩ := h
    simp only [mem_cons, not_mem_nil, or_false]
    rintro u (rfl | rfl | rfl)
    · rcases hf with rfl | rfl <;> decide
    · rcases ho with rfl | rfl <;> decide
    · rcases hr with rfl | rfl <;> decide

theorem isSpace_name (h : ∀ u ∈ name, isAddressUnit u = true) :
    ∀ u ∈ name ++ [unit '='], Str.isSpace u = false := by
  intro u hu
  rcases mem_append.mp hu with hu | hu
  · exact isSpace_of_isAddressUnit (h u hu)
  · rw [mem_singleton.mp hu]
    decide

/-- The value of the first `for` directive is read, wherever the directive stands. -/
theorem forDirective_text {before after : List Str} {value : Element}
    (h : (ForwardedElement.forDirective before name value after).Valid isIP) :
    forDirective (ForwardedElement.forDirective before name value after).text = value.text := by
  obtain ⟨hbefore, ⟨hlength, hname⟩, ⟨-, hvalue⟩, hafter⟩ := h
  have hunits := isAddressUnit_of_startsWithFor hlength hname
  have hparts : ∀ s ∈ before ++ (name ++ unit '=' :: value.text) :: after, unit ';' ∉ s := by
    intro s hs
    rcases mem_append.mp hs with hs | hs
    · exact (hbefore s hs).1
    · rcases mem_cons.mp hs with rfl | hs
      · rw [mem_append, mem_cons, not_or, not_or]
        exact ⟨fun hmem => ne_of_isAddressUnit (hunits _ hmem) (by decide) rfl, by decide, hvalue⟩
      · exact hafter s hs
  have hfor : startsWithFor (Str.trim (name ++ unit '=' :: value.text)) = true := by
    obtain ⟨t, ht⟩ := exists_trim_append (isSpace_name hunits) value.text
    rw [ht, startsWithFor_append hlength, hname]
  have hfind : (before ++ (name ++ unit '=' :: value.text) :: after).find?
      (fun subchunk => startsWithFor (Str.trim subchunk)) =
        some (name ++ unit '=' :: value.text) := by
    have hnone : before.find? (fun subchunk => startsWithFor (Str.trim subchunk)) = none :=
      find?_eq_none.mpr fun d hd => by simp [(hbefore d hd).2]
    rw [find?_append, hnone, none_or, find?_cons, hfor]
  rw [forDirective, ForwardedElement.text,
    split_join hparts (append_ne_nil_of_right_ne_nil _ (cons_ne_nil _ _)), hfind]
  rw [append_cons]
  exact drop_left' (by rw [length_append, hlength]; rfl)

/-- What starts with a name and a sign of equality is no address, whatever is taken off behind
them. -/
theorem mem_cleanIp (hne : name ≠ [])
    (hname : ∀ u ∈ name, isAddressUnit u = true ∧ u ≠ unit ':') (rest : Str) :
    unit '=' ∈ cleanIp (name ++ unit '=' :: rest) := by
  have hunits := fun u hu => (hname u hu).1
  have hmem : unit '=' ∈ name ++ unit '=' :: rest := by simp
  have hbrackets : unit '=' ∈ cleanBrackets (name ++ unit '=' :: rest) := by
    have hhead : (name ++ unit '=' :: rest).head? ≠ some (unit '[') := by
      obtain ⟨c, name, rfl⟩ := exists_cons_of_ne_nil hne
      intro heq
      exact ne_of_isAddressUnit (hunits c mem_cons_self) (by decide) (some.inj heq)
    unfold cleanBrackets
    rcases Str.cut (unit ']') (name ++ unit '=' :: rest) with _ | ⟨front, back⟩
    · exact hmem
    · simp only [if_neg hhead]
      exact hmem
  unfold cleanIp
  rcases hcut : Str.cut (unit ':') rest with _ | ⟨front, back⟩
  · have hnone : Str.cut (unit ':') (name ++ unit '=' :: rest) = none := by
      refine cut_eq_none_iff.mpr ?_
      rw [mem_append, mem_cons, not_or, not_or]
      exact ⟨fun h => (hname _ h).2 rfl, by decide, cut_eq_none_iff.mp hcut⟩
    rw [hnone]
    exact hbrackets
  · obtain ⟨hrest, hfront⟩ := cut_eq_some hcut
    have hsome : Str.cut (unit ':') (name ++ unit '=' :: rest) =
        some (name ++ unit '=' :: front, back) := by
      rw [hrest, ← cons_append, ← append_assoc]
      refine cut_append ?_ back
      rw [mem_append, mem_cons, not_or, not_or]
      exact ⟨fun h => (hname _ h).2 rfl, by decide, hfront⟩
    rw [hsome]
    dsimp only
    split
    · obtain ⟨t, ht⟩ := exists_trim_append (isSpace_name hunits) front
      rw [ht]
      simp
    · exact hbrackets

/-- **A `for` directive is read.** -/
theorem addressOf_forwarded (hip : IsIP isIP) {e : ForwardedElement} (h : e.Valid isIP) :
    addressOf isIP (clean true e.text) = e.address := by
  cases e with
  | forDirective before name value after =>
    show addressOf isIP (cleanIp (unquote (Str.trim (forDirective _)))) = _
    rw [forDirective_text h]
    exact addressOf_text hip h.2.2.1.1
  | without name rest =>
    obtain ⟨⟨hne, hname⟩, hdirectives⟩ := h
    have hnone : forDirective (name ++ unit '=' :: rest) = name ++ unit '=' :: rest := by
      have hfind : (Str.split (unit ';') (name ++ unit '=' :: rest)).find?
          (fun subchunk => startsWithFor (Str.trim subchunk)) = none :=
        find?_eq_none.mpr fun d hd => by simp [hdirectives d hd]
      rw [forDirective, hfind]
    obtain ⟨t, ht⟩ := exists_trim_append (isSpace_name fun u hu => (hname u hu).1) rest
    have hunquote : unquote (name ++ unit '=' :: t) = name ++ unit '=' :: t := by
      refine if_neg fun hquotes => ?_
      obtain ⟨c, name, rfl⟩ := exists_cons_of_ne_nil hne
      exact ne_of_isAddressUnit (hname c mem_cons_self).1 (by decide) (some.inj hquotes.1)
    show addressOf isIP (cleanIp (unquote (Str.trim (forDirective _)))) = _
    rw [ForwardedElement.text, hnone, ht, hunquote]
    refine addressOf_eq_none ?_
    rcases htype : isIP (cleanIp (name ++ unit '=' :: t)) with _ | type
    · rfl
    · exact absurd (mem_cleanIp hne hname t) (hip.notMem htype (by decide))

/-! ## Headers -/

/-- How a header is written, and the addresses it lists. -/
inductive Lists (isIP : Str → Option Family) : Bool → Str → List Str → Prop where
  | list (es : List Element) (h : ∀ e ∈ es, e.Valid isIP ∧ unit ',' ∉ e.text) :
      Lists isIP false (Str.join (unit ',') (es.map Element.text)) (es.filterMap Element.address)
  | forwarded (es : List ForwardedElement) (h : ∀ e ∈ es, e.Valid isIP ∧ unit ',' ∉ e.text) :
      Lists isIP true (Str.join (unit ',') (es.map ForwardedElement.text))
        (es.filterMap ForwardedElement.address)

theorem readHeader_join {ε : Type} (text : ε → Str) (address : ε → Option Str) {fwd : Bool}
    {es : List ε} (hread : ∀ e ∈ es, readChunk net fwd (text e) = address e)
    (hcomma : ∀ e ∈ es, unit ',' ∉ text e) :
    readHeader net fwd (Str.join (unit ',') (es.map text)) = es.filterMap address := by
  rcases es with _ | ⟨e, es⟩
  · exact readHeader_nil fwd
  · have hparts : ∀ s ∈ (e :: es).map text, unit ',' ∉ s := by
      intro s hs
      obtain ⟨e', he', rfl⟩ := List.mem_map.mp hs
      exact hcomma e' he'
    rw [readHeader, split_join hparts (by simp), filterMap_map]
    exact filterMap_congr hread

/-- **A header is read.** -/
theorem readHeader_of_lists (hip : IsIP net.isIP) {fwd : Bool} {str : Str} {addresses : List Str}
    (h : Lists net.isIP fwd str addresses) : readHeader net fwd str = addresses := by
  cases h with
  | list es hes =>
    exact readHeader_join Element.text Element.address
      (fun e he => addressOf_text hip (hes e he).1) fun e he => (hes e he).2
  | forwarded es hes =>
    exact readHeader_join ForwardedElement.text ForwardedElement.address
      (fun e he => addressOf_forwarded hip (hes e he).1) fun e he => (hes e he).2

/-- The addresses of a request: those that its headers list, in the order of the headers. -/
def listed (req : Request) (addresses : Str → List Str) (names : List Str) : List Str :=
  names.flatMap fun name => if (req.header name).isSome then addresses name else []

/-- **The address of the client.**  The first public address that the headers list, else the first
private one, else the address of the socket, which is not asked where a header is configured. -/
theorem first_address (hip : IsIP net.isIP) (config : Config) (req : Request)
    (addresses : Str → List Str)
    (h : ∀ name ∈ consulted config, ∀ str, req.header name = some str →
      Lists net.isIP (name = FORWARED_HEADER_NAME) str (addresses name)) :
    extractIp net config req = ((listed req addresses (consulted config)).find? net.isPublic).or
        (((listed req addresses (consulted config)).find? fun ip => !net.isPublic ip).or
          (fallback config req)) := by
  have hread : readHeaders net req.header (consulted config) =
      listed req addresses (consulted config) := by
    refine flatMap_congr fun name hname => ?_
    rcases hheader : req.header name with _ | str
    · rfl
    · exact readHeader_of_lists hip (h name hname str hheader)
  rw [extractIp_eq, hread]

/-! ## Two addresses -/

def privateAddress : Str := lit "10.0.0.1"

def publicAddress : Str := lit "8.8.8.8"

/-- `net`, for these two addresses. -/
def twoAddresses : Net where
  isIP s := if s = privateAddress ∨ s = publicAddress then some .ipv4 else none
  check _ ip _ := ip = privateAddress

theorem isIP_twoAddresses : IsIP twoAddresses.isIP := by
  have hcases : ∀ s type, twoAddresses.isIP s = some type →
      (s = privateAddress ∨ s = publicAddress) ∧ type = .ipv4 := by
    intro s type h
    by_cases hs : s = privateAddress ∨ s = publicAddress
    · rw [twoAddresses] at h
      simp only [if_pos hs, some.injEq] at h
      exact ⟨hs, h.symm⟩
    · rw [twoAddresses] at h
      simp only [if_neg hs] at h
      cases h
  refine ⟨fun s type h => ?_, fun s h => ?_, fun s h => ?_⟩
  · rcases (hcases s type h).1 with rfl | rfl
    all_goals exact forall_mem_of_all (by decide)
  · rcases (hcases s .ipv4 h).1 with rfl | rfl
    · decide
    · decide
  · cases (hcases s .ipv6 h).2

theorem valid_publicAddress : (Host.ipv4 publicAddress).Valid twoAddresses.isIP := by
  show twoAddresses.isIP publicAddress = some .ipv4
  decide

/-- A request with one header. -/
def oneHeader (name value : Str) (remoteAddress : Option Str) : Request where
  headers := some fun n => if n = name then some value else none
  remoteAddress := remoteAddress

theorem eq_of_oneHeader {value n str : Str} {remoteAddress : Option Str}
    (h : (oneHeader name value remoteAddress).header n = some str) : n = name ∧ str = value := by
  simp only [Request.header, oneHeader, bind_some] at h
  by_cases hn : n = name
  · rw [if_pos hn, some.injEq] at h
    exact ⟨hn, h.symm⟩
  · rw [if_neg hn] at h
    cases h

def forwardedRequest : Request :=
  oneHeader FORWARED_HEADER_NAME (lit "for=\" 10.0.0.1:80 \";proto=http,by=x;FOR=8.8.8.8") none

theorem first_address_forwarded : extractIp twoAddresses ⟨[]⟩ forwardedRequest =
      ((listed forwardedRequest (fun _ => [privateAddress, publicAddress])
        (consulted ⟨[]⟩)).find? twoAddresses.isPublic).or
        (((listed forwardedRequest (fun _ => [privateAddress, publicAddress])
          (consulted ⟨[]⟩)).find? fun ip => !twoAddresses.isPublic ip).or
            (fallback ⟨[]⟩ forwardedRequest)) := by
  refine first_address isIP_twoAddresses ⟨[]⟩ forwardedRequest _ fun name _ str hstr => ?_
  obtain ⟨rfl, rfl⟩ := eq_of_oneHeader hstr
  have hblank : IsBlank (lit " ") := forall_mem_of_all (by decide)
  exact .forwarded [.forDirective [] (lit "for")
        (.quoted [] (lit " ") (.ipv4Port privateAddress [] (lit "80")) (lit " ") [])
        [lit "proto=http"],
      .forDirective [lit "by=x"] (lit "FOR") (.bare [] (.ipv4 publicAddress) []) []]
    (by
      simp only [forall_mem_cons]
      refine ⟨⟨⟨by decide, by decide, ⟨⟨isBlank_nil, hblank, ⟨by decide, isBlank_nil, by decide⟩,
        hblank, isBlank_nil⟩, by decide⟩, by decide⟩, by decide⟩,
        ⟨⟨by decide, by decide, ⟨⟨isBlank_nil, valid_publicAddress, isBlank_nil⟩, by decide⟩,
          by decide⟩, by decide⟩, fun e he => absurd he not_mem_nil⟩)

/-- Where a header is configured no other header is read.  And a `for` directive behind a blank is
not read, so that a private address in front of a public one is taken. -/
theorem not_first_address :
    (¬ ∀ (net : Net) (config : Config) (req : Request) (addresses : Str → List Str), IsIP net.isIP →
      (∀ name ∈ ipHeaderList, ∀ str, req.header name = some str →
        Lists net.isIP (name = FORWARED_HEADER_NAME) str (addresses name)) →
      extractIp net config req = ((listed req addresses ipHeaderList).find? net.isPublic).or
          (((listed req addresses ipHeaderList).find? fun ip => !net.isPublic ip).or
            req.remoteAddress)) ∧
      extractIp twoAddresses ⟨[]⟩
        (oneHeader FORWARED_HEADER_NAME (lit "for=10.0.0.1, for=8.8.8.8") none) =
          some privateAddress ∧ twoAddresses.isPublic publicAddress = true := by
  refine ⟨fun h => ?_, by decide, by decide⟩
  have hconfigured := h twoAddresses ⟨lit "x-custom"⟩
    (oneHeader (lit "x-real-ip") publicAddress none) (fun _ => [publicAddress])
    isIP_twoAddresses fun name _ str hstr => by
      obtain ⟨rfl, rfl⟩ := eq_of_oneHeader hstr
      exact .list [.bare [] (.ipv4 publicAddress) []] (by
        simp only [forall_mem_cons]
        exact ⟨⟨⟨isBlank_nil, valid_publicAddress, isBlank_nil⟩, by decide⟩,
          fun e he => absurd he not_mem_nil⟩)
  exact absurd hconfigured (by decide)

end DdTrace.Plugins.IpExtractor
