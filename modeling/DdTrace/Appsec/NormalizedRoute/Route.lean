import DdTrace.Library.OrderedMap
import DdTrace.Library.ParentChain
import DdTrace.Library.PercentEncoding

/-!
# The normalized route

`api_security/normalized-route.js` writes the route of a request in a normal form, for Express 5.
The route is parsed by path-to-regexp's `parse`, whose tokens are taken apart into segments, each
with the group of its slash and the tokens up to the next one (`tokensToSegments`).  What depends on
the route alone is compiled once (`compileRoute`).  A request then only asks which of the optional
groups are present, which is read off the parameters that path-to-regexp's `match` returns
(`resolvePresence`), and takes the rendering for these groups from a cache, under a mask with a bit
for each group (`normalizeRouteExpress`).

`parse` and the factory of matchers are arguments, as they are in the source.  A route without a tag
is one that is not parsed, one with a catch-all that is not its last token, one with a group that
holds a parameter but none of its own, or one with too many groups.

The second half says what a rendering is, by the tokens of the route with the groups around them
(`placed`), which are numbered by their opening braces.  A match uses some of these groups.

* `usedContents` and `shownContents`: what is in the groups that are used, and what is left of it
  without the groups that hold no parameter, which the code always takes for absent.
-/

namespace DdTrace.Appsec

open Library
open Library.PercentEncoding

namespace NormalizedRoute

/-! ## The code -/

/-- A token of `parse`. -/
inductive PathToRegexpToken where
  | text (value : Str)
  | param (name : Str)
  | wildcard (name : Str)
  | group (tokens : List PathToRegexpToken)

/-- What a token of a route is, apart from its group. -/
inductive Content where
  | slash
  | static (text : Str)
  | param (name : Str)
  | wildcard (name : Str)
  deriving DecidableEq

namespace Content

/-- The name of a parameter. -/
def name? : Content → Option Str
  | .slash => none
  | .static _ => none
  | .param name => some name
  | .wildcard name => some name

def staticText : Content → Str
  | .static text => text
  | _ => []

def isWildcard : Content → Bool
  | .wildcard _ => true
  | _ => false

end Content

/-- A token with the innermost group around it; 0 is the top level. -/
structure RouteToken where
  content : Content
  group : ℕ

structure RouteSegment where
  group : ℕ
  tokens : List RouteToken

/-- The tokens of a text. -/
def textContents (value : Str) : List Content :=
  (Str.split (unit '/') value).zipIdx.flatMap fun part =>
    (if part.2 > 0 then [.slash] else []) ++ (if part.1.isEmpty then [] else [.static part.1])

/-- What `walk` reads and writes. -/
structure Walk where
  nextGroupId : ℕ
  groupParent : OrderedMap ℕ ℕ
  flat : List RouteToken

mutual

def walkToken (group : ℕ) : PathToRegexpToken → Walk → Walk
  | .text value, s =>
    { s with flat := s.flat ++ (textContents value).map fun content => ⟨content, group⟩ }
  | .param name, s => { s with flat := s.flat ++ [⟨.param name, group⟩] }
  | .wildcard name, s => { s with flat := s.flat ++ [⟨.wildcard name, group⟩] }
  | .group tokens, s =>
    let groupId := s.nextGroupId + 1
    walk groupId tokens ⟨groupId, s.groupParent.set groupId group, s.flat⟩

def walk (group : ℕ) : List PathToRegexpToken → Walk → Walk
  | [], s => s
  | token :: tokens, s => walk group tokens (walkToken group token s)

end

/-- A turn of the loop over the flat tokens: the segments that are done, and `cur`. -/
def segmentStep (s : List RouteSegment × Option RouteSegment) (token : RouteToken) :
    List RouteSegment × Option RouteSegment :=
  if token.content = .slash then (s.1 ++ s.2.toList, some ⟨token.group, []⟩)
  else
    let cur := s.2.getD ⟨0, []⟩
    (s.1, some ⟨cur.group, cur.tokens ++ [token]⟩)

def segmentsOf (flat : List RouteToken) : List RouteSegment :=
  let s := flat.foldl segmentStep ([], none)
  s.1 ++ s.2.toList

/-- A trailing empty segment at the top level. -/
def declaresTrailingSlash (segments : List RouteSegment) : Bool :=
  segments.getLast?.any fun last => last.tokens.isEmpty && last.group == 0

structure SegmentModel where
  segments : List RouteSegment
  groupParent : OrderedMap ℕ ℕ
  trailingSlash : Bool

def tokensToSegments (ptTokens : List PathToRegexpToken) : SegmentModel :=
  let walked := walk 0 ptTokens ⟨0, .empty, []⟩
  let segments := segmentsOf walked.flat
  let trailingSlash := declaresTrailingSlash segments
  ⟨if trailingSlash then segments.dropLast else segments, walked.groupParent, trailingSlash⟩

/-- `groupParent.get(g)`; every group has an entry. -/
def parentOf (groupParent : OrderedMap ℕ ℕ) (g : ℕ) : ℕ := (groupParent.get? g).getD 0

/-- The values `g` takes in `for (; g !== 0; g = groupParent.get(g))`. -/
def groupChain (groupParent : OrderedMap ℕ ℕ) (g : ℕ) : List ℕ :=
  ParentChain.chain (parentOf groupParent) g

/-- A segment model with what does not depend on the request. -/
structure Template where
  segments : List RouteSegment
  groupParent : OrderedMap ℕ ℕ
  optionalGroups : List ℕ
  trailingSlash : Bool

/-- True when group `g` and all the groups around it are present. -/
def groupActive (g : ℕ) (groupParent : OrderedMap ℕ ℕ) (present : List ℕ) : Bool :=
  (groupChain groupParent g).all (includes present)

/-- `[A-Za-z0-9.\-~_]` -/
def isStaticChar (c : ℕ) : Bool :=
  (0x30 ≤ c && c ≤ 0x39) || (0x41 ≤ c && c ≤ 0x5A) || (0x61 ≤ c && c ≤ 0x7A) || c == 0x2D ||
    c == 0x2E || c == 0x5F || c == 0x7E

def encodeStaticSegment (str : Str) : Str :=
  (Unicode.chars str).flatMap fun c =>
    if isStaticChar c then Unicode.units c
    else if c < 0x80 then escapeByte c.toUInt8
    else (encodeURIComponent (Unicode.units c)).getD (lit "%EF%BF%BD")

/-- `[/?#+{}]` -/
def isReservedInName (u : UInt16) : Bool := includes (lit "/?#+\x7b\x7d") u

def encodeParamName (name : Str) : Str :=
  name.flatMap fun u => if isReservedInName u then escapeByte u.toNat.toUInt8 else [u]

def isDynamic (t : RouteToken) : Bool := t.content.name?.isSome

/-- The name of a token that has one. -/
def RouteToken.name (t : RouteToken) : Str := t.content.name?.getD []

/-! ### `renderRoute` -/

def paramN (counter : ℕ) : Str := lit "param" ++ Str.natString 10 counter

/-- The loop that looks for the next counter, with a bound on its turns. -/
def freshCounter (used : List Str) : ℕ → ℕ → ℕ
  | 0, counter => counter
  | fuel + 1, counter =>
    if includes used (paramN counter) then freshCounter used fuel (counter + 1) else counter

/-- The last index of each name. -/
def lastIndexByName (encodedNames : List Str) : OrderedMap Str ℕ :=
  encodedNames.zipIdx.foldl (fun m e => m.set e.1 e.2) .empty

/-- The loop over the names. -/
def resolve (lastIndex : OrderedMap Str ℕ) : List (Str × ℕ) → ℕ → List Str → List Str
  | [], _, _ => []
  | (name, idx) :: rest, counter, used =>
    if lastIndex.get? name = some idx then name :: resolve lastIndex rest counter used
    else
      let counter := freshCounter used used.length counter
      paramN counter :: resolve lastIndex rest (counter + 1) (used ++ [paramN counter])

/-- Pass 2. -/
def resolvedNames (encodedNames : List Str) : List Str :=
  let lastIndex := lastIndexByName encodedNames
  let used := (encodedNames.zipIdx.filter fun e => lastIndex.get? e.1 == some e.2).map (·.1)
  resolve lastIndex encodedNames.zipIdx 1 used

/-- What pass 3 reads and writes; `names` are the resolved names from `dynPtr` on. -/
structure Output where
  out : List Str
  names : List Str
  staticText : Str
  paramNames : List Str
  isCatchAll : Bool

def braced (text : Str) : Str := unit '\x7b' :: (text ++ [unit '\x7d'])

namespace Output

/-- The element that `flush` pushes. -/
def element (s : Output) : List Str :=
  if s.isCatchAll then [braced (Str.join (unit '+') s.paramNames)]
  else if s.paramNames.length = 1 then [braced (s.paramNames.headD [])]
  else if s.paramNames.length > 1 then [braced (Str.join (unit '+') s.paramNames)]
  else if s.staticText.isEmpty then []
  else [encodeStaticSegment s.staticText]

def flush (s : Output) : Output := ⟨s.out ++ s.element, s.names, [], [], false⟩

def token (groupParent : OrderedMap ℕ ℕ) (present : List ℕ) (s : Output) (t : RouteToken) :
    Output :=
  if groupActive t.group groupParent present then
    match t.content with
    | .static text => { s with staticText := s.staticText ++ text }
    | content => { s with
        names := s.names.tail
        paramNames := s.paramNames ++ s.names.take 1
        isCatchAll := s.isCatchAll || content.isWildcard }
  else s

def segment (groupParent : OrderedMap ℕ ℕ) (present : List ℕ) (s : Output) (seg : RouteSegment) :
    Output :=
  seg.tokens.foldl (token groupParent present)
    (if groupActive seg.group groupParent present then s.flush else s)

end Output

/-- Pass 1. -/
def presentDynamic (compiled : Template) (present : List ℕ) : List RouteToken :=
  (compiled.segments.flatMap (·.tokens)).filter fun t =>
    isDynamic t && groupActive t.group compiled.groupParent present

def renderRoute (compiled : Template) (present : List ℕ) : Str :=
  let dyn := presentDynamic compiled present
  let names := resolvedNames (dyn.map fun t => encodeParamName t.name)
  let output := (compiled.segments.foldl (Output.segment compiled.groupParent present)
    ⟨[], names, [], [], false⟩).flush
  let normalized := unit '/' :: Str.join (unit '/') output.out
  if compiled.trailingSlash && normalized != [unit '/'] then normalized ++ [unit '/']
  else normalized

/-! ### `compileRoute` -/

/-- The own properties of an object of parameters; `none` is `undefined`. -/
abbrev Params (V : Type) := OrderedMap Str (Option V)

abbrev Matcher (V : Type) := Str → Option (Params V)

structure CompiledRoute (V : Type) extends Template where
  precomputed : Option Str
  matcher : Option (Matcher V)
  variants : OrderedMap (BitVec 32) Str

/-- The groups, of which `represented` holds each once. -/
def represented (cleaned : List RouteSegment) : List ℕ :=
  ((cleaned.flatMap fun seg => seg.group :: seg.tokens.map (·.group)).filter (· != 0)).dedup

def effectiveParent (groupParent : OrderedMap ℕ ℕ) (represented : List ℕ) : OrderedMap ℕ ℕ :=
  represented.foldl (fun m g => m.set g
    (ParentChain.nearest (parentOf groupParent) (includes represented) g (parentOf groupParent g)))
    .empty

def dynamicTokens (cleaned : List RouteSegment) : List RouteToken :=
  (cleaned.flatMap (·.tokens)).filter isDynamic

def nameCount (cleaned : List RouteSegment) (name : Str) : ℕ :=
  ((dynamicTokens cleaned).map RouteToken.name).count name

def detectable (cleaned : List RouteSegment) : List ℕ :=
  ((dynamicTokens cleaned).filter fun t =>
    t.group != 0 && nameCount cleaned t.name == 1).map (·.group)

def paramGroups (groupParent : OrderedMap ℕ ℕ) (cleaned : List RouteSegment) : List ℕ :=
  (dynamicTokens cleaned).flatMap fun t => groupChain groupParent t.group

/-- A catch-all that is not the last token of the last segment. -/
def hasInnerWildcard (cleaned : List RouteSegment) : Bool :=
  cleaned.zipIdx.any fun seg => seg.1.tokens.zipIdx.any fun t =>
    t.1.content.isWildcard && (seg.2 != cleaned.length - 1 || t.2 != seg.1.tokens.length - 1)

def MAX_OPTIONAL_GROUPS : ℕ := 8

variable {V : Type}

def compileRoute (route : Str) (parse : Str → Option (List PathToRegexpToken))
    (makeMatcher : Str → Option (Matcher V)) : Option (CompiledRoute V) :=
  match parse route with
  | none => none
  | some tokens =>
    let model := tokensToSegments tokens
    let cleaned := model.segments.filter fun s => !s.tokens.isEmpty
    if cleaned.isEmpty then some ⟨⟨[], .empty, [], false⟩, some (lit "/"), none, .empty⟩
    else if hasInnerWildcard cleaned then none
    else
      let represented := represented cleaned
      let detectable := detectable cleaned
      let paramGroups := paramGroups model.groupParent cleaned
      if represented.any fun g => includes paramGroups g && !includes detectable g then none
      else
        let optionalGroups := (represented.filter (includes detectable)).insertionSort (· ≤ ·)
        let compiled : Template := ⟨cleaned, effectiveParent model.groupParent represented,
          optionalGroups, model.trailingSlash⟩
        if optionalGroups.isEmpty then
          some ⟨compiled, some (renderRoute compiled []), none, .empty⟩
        else if model.groupParent.entries.length > MAX_OPTIONAL_GROUPS then none
        else
          match makeMatcher route with
          | none => none
          | some matcher => some ⟨compiled, none, some matcher, .empty⟩

/-! ### A request -/

/-- A turn of the loop over the tokens. -/
def presenceStep (groupParent : OrderedMap ℕ ℕ) (params : Params V) (present : List ℕ)
    (t : RouteToken) : List ℕ :=
  if t.group == 0 || !isDynamic t then present
  else
    match params.get? t.name with
    | some (some _) => ParentChain.mark (parentOf groupParent) t.group t.group present
    | _ => present

def resolvePresence (compiled : Template) (params : Option (Params V)) : List ℕ :=
  match params with
  | none => []
  | some params => (compiled.segments.flatMap (·.tokens)).foldl
      (presenceStep compiled.groupParent params) []

def presenceBitmask (optionalGroups present : List ℕ) : BitVec 32 :=
  optionalGroups.zipIdx.foldl (fun mask g =>
    if includes present g.1 then mask ||| 1#32 <<< (g.2 % 32) else mask) 0

/-- The compiled routes by their text; `none` is a route without a tag. -/
abbrev RouteCache (V : Type) := OrderedMap Str (Option (CompiledRoute V))

/-- The URL without its query. -/
def pathOf (urlPath : Str) : Str := urlPath.takeWhile fun u => u != unit '?'

/-- The parameters that the matcher gives for the URL. -/
def matchedParams (entry : CompiledRoute V) (urlPath : Option Str) : Option (Params V) :=
  match urlPath with
  | none => none
  | some url => if url.isEmpty then none else entry.matcher.bind fun matcher => matcher (pathOf url)

/-- A request for a route that has variants. -/
def renderVariant (routeCache : RouteCache V) (route : Str) (entry : CompiledRoute V)
    (params : Option (Params V)) (urlPath : Option Str) : Str × RouteCache V :=
  let present := resolvePresence entry.toTemplate (matchedParams entry urlPath <|> params)
  let mask := presenceBitmask entry.optionalGroups present
  match entry.variants.get? mask with
  | some cached => (cached, routeCache)
  | none =>
    let result := renderRoute entry.toTemplate present
    (result, routeCache.set route (some { entry with variants := entry.variants.set mask result }))

def normalizeRouteExpress (routeCache : RouteCache V) (route : Option Str)
    (params : Option (Params V)) (urlPath : Option Str)
    (parse : Option (Str → Option (List PathToRegexpToken)))
    (makeMatcher : Option (Str → Option (Matcher V))) : Option Str × RouteCache V :=
  match route, parse, makeMatcher with
  | some route, some parse, some makeMatcher =>
    if route.isEmpty then (none, routeCache)
    else
      let entry := (routeCache.get? route).getD (compileRoute route parse makeMatcher)
      let routeCache := if routeCache.has route then routeCache else routeCache.set route entry
      match entry with
      | none => (none, routeCache)
      | some entry =>
        match entry.precomputed with
        | some precomputed => (some precomputed, routeCache)
        | none =>
          let rendered := renderVariant routeCache route entry params urlPath
          (some rendered.1, rendered.2)
  | _, _, _ => (none, routeCache)

/-! ## What a rendering is

A match of a route uses some of its groups, which are numbered by their opening braces. -/

/-- A token of a route with the groups around it, innermost first. -/
structure Placed where
  content : Content
  around : List ℕ

mutual

/-- The placed tokens of a token, and the number of groups up to its end. -/
def placeToken (around : List ℕ) : PathToRegexpToken → ℕ → List Placed × ℕ
  | .text value, n => ((textContents value).map fun content => ⟨content, around⟩, n)
  | .param name, n => ([⟨.param name, around⟩], n)
  | .wildcard name, n => ([⟨.wildcard name, around⟩], n)
  | .group tokens, n => place ((n + 1) :: around) tokens (n + 1)

def place (around : List ℕ) : List PathToRegexpToken → ℕ → List Placed × ℕ
  | [], n => ([], n)
  | token :: tokens, n =>
    let first := placeToken around token n
    let others := place around tokens first.2
    (first.1 ++ others.1, others.2)

end

def placed (tokens : List PathToRegexpToken) : List Placed := (place [] tokens 0).1

namespace Placed

/-- All the groups around a token are in use. -/
def isUsed (used : ℕ → Bool) (p : Placed) : Bool := p.around.all used

def isDynamic (p : Placed) : Bool := p.content.name?.isSome

end Placed

/-- What the tokens say whose groups are all in use, without the slashes. -/
def usedContents (used : ℕ → Bool) (tokens : List PathToRegexpToken) : List Content :=
  ((placed tokens).filter fun p => p.content != .slash && p.isUsed used).map (·.content)

/-- A group with a parameter in it, at any depth. -/
def holdsParam (tokens : List PathToRegexpToken) (g : ℕ) : Bool :=
  (placed tokens).any fun p => p.isDynamic && includes p.around g

/-- The same when the groups without a parameter are left out. -/
def shownContents (used : ℕ → Bool) (tokens : List PathToRegexpToken) : List Content :=
  usedContents (fun g => used g && holdsParam tokens g) tokens

/-- The match returns the values of the parameters in the groups it used. -/
def Captures (tokens : List PathToRegexpToken) (used : ℕ → Bool) (params : Params V) : Prop :=
  ∀ name, (∃ value, params.get? name = some (some value)) ↔
    ∃ p ∈ placed tokens, p.content.name? = some name ∧ p.isUsed used = true

/-- No parameter of a group that is not used has the name of one that was captured. -/
def Tells (tokens : List PathToRegexpToken) (used : ℕ → Bool) : Prop :=
  ∀ p ∈ placed tokens, ∀ q ∈ placed tokens, p.isDynamic = true →
    p.content.name? = q.content.name? → p.isUsed used = true → q.isUsed used = true

/-- What is active of a compiled route. -/
def activeContents (compiled : Template) (present : List ℕ) : List Content :=
  ((compiled.segments.flatMap (·.tokens)).filter fun t =>
    groupActive t.group compiled.groupParent present).map (·.content)

/-- A content that an element can hold. -/
def Content.IsProper (content : Content) : Prop := content ≠ .slash ∧ content ≠ .static []

/-- A token in a rendered element, and the name it goes by if it is a parameter. -/
structure Part where
  content : Content
  goesBy : Str

namespace Part

def name? (p : Part) : Option Str := p.content.name?.map fun _ => p.goesBy

end Part

/-- The text of an element: its names if there are any, or else its static text. -/
def elementText (parts : List Part) : Str :=
  let names := parts.filterMap Part.name?
  if names.isEmpty then encodeStaticSegment (parts.flatMap fun p => p.content.staticText)
  else braced (Str.join (unit '+') names)

/-- The last parameter of a name goes by it, and those before it by the names that are made up. -/
def Named : List Part → Prop
  | [] => True
  | p :: parts => (∀ name ∈ p.content.name?,
      if encodeParamName name ∈ parts.filterMap (fun q => q.content.name?.map encodeParamName)
      then ∃ n, p.goesBy = paramN n else p.goesBy = encodeParamName name) ∧ Named parts

/-- A rendered route with these tokens, by its elements. -/
structure Rendered (contents : List Content) where
  elements : List (List Part)
  trailingSlash : Bool
  map_content : elements.flatten.map (·.content) = contents
  text_ne_nil : ∀ parts ∈ elements, elementText parts ≠ []
  notMem_text : ∀ parts ∈ elements, unit '/' ∉ elementText parts
  named : Named elements.flatten
  nodup : (elements.flatten.filterMap Part.name?).Nodup
  catchAll_last : ∀ before parts after, elements = before ++ parts :: after →
    (∃ p ∈ parts, p.content.isWildcard = true) → after = []

def Rendered.text {contents : List Content} (r : Rendered contents) : Str :=
  unit '/' :: (Str.join (unit '/') (r.elements.map elementText) ++
    if r.trailingSlash && !r.elements.isEmpty then [unit '/'] else [])

/-- The caches that the requests of a process leave behind. -/
inductive Reachable (parse : Str → Option (List PathToRegexpToken))
    (makeMatcher : Str → Option (Matcher V)) : RouteCache V → Prop where
  | start : Reachable parse makeMatcher .empty
  | request {routeCache : RouteCache V} (h : Reachable parse makeMatcher routeCache)
      (route : Option Str) (params : Option (Params V)) (urlPath : Option Str) :
      Reachable parse makeMatcher
        (normalizeRouteExpress routeCache route params urlPath (some parse) (some makeMatcher)).2

end NormalizedRoute
end DdTrace.Appsec
