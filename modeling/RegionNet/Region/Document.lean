import RegionNet.Json.Reader
import RegionNet.Region.Basic

/-!
# Region documents

The JSON form of a region tree. A region is written as an object with a member for each field that
is present. It is read from an object with its members in any order, where unknown members are
ignored, or from an array that lists the fields in their fixed order and may break off after the
kind.
-/

namespace RegionNet

/-- The fields of a region, in their fixed order. -/
inductive Field where
  | id
  | kind
  | label
  | duration
  | impacts
  | children
  | distribution
  | bound
  deriving DecidableEq, Repr

namespace Field

def all : List Field := [id, kind, label, duration, impacts, children, distribution, bound]

def name : Field → String
  | id => "id"
  | kind => "type"
  | label => "label"
  | duration => "duration"
  | impacts => "impacts"
  | children => "children"
  | distribution => "distribution"
  | bound => "bound"

def ofName? (s : String) : Option Field := all.find? (·.name = s)

end Field

/-- The fields of a region as far as they have been read. -/
structure Draft where
  id : Option String
  kind : Option Kind
  label : Option (Option String)
  duration : Option Float
  impacts : Option (Option (List Float))
  children : Option (Option (List (Region Float)))
  distribution : Option (Option (Distribution Float))
  bound : Option (Option Float)

namespace Draft

def empty : Draft := ⟨none, none, none, none, none, none, none, none⟩

/-- The field has been read. -/
def has (d : Draft) : Field → Bool
  | .id => d.id.isSome
  | .kind => d.kind.isSome
  | .label => d.label.isSome
  | .duration => d.duration.isSome
  | .impacts => d.impacts.isSome
  | .children => d.children.isSome
  | .distribution => d.distribution.isSome
  | .bound => d.bound.isSome

/-- The region, where all fields but the id and the kind may be missing. -/
def finish (d : Draft) : Except Json.Mismatch (Region Float) :=
  match d.id, d.kind with
  | none, _ => .error (.missingField Field.id.name)
  | _, none => .error (.missingField Field.kind.name)
  | some id, some kind =>
    .ok
      { id, kind
        label := d.label.join
        duration := d.duration.getD 0
        impacts := d.impacts.join
        children := d.children.join
        distribution := d.distribution.join
        bound := d.bound.join }

end Draft

namespace Region

open Json (Token Reader ReadError)
open Json.Read (illFormed unfinished)

/-- The names under which the kinds are known. -/
def kindNames : List String := Kind.all.flatMap fun k => [k.title, k.keyword]

def kindOfName? (s : String) : Option Kind := Kind.all.find? fun k => s = k.title ∨ s = k.keyword

/-- Reads the name of a kind. -/
def readKindName : Reader Kind
  | [] => .error unfinished
  | t :: ts =>
    if t.isString then do
      let (name, ts) ← Json.Read.string "a string" (t :: ts)
      match kindOfName? name with
      | some k => .ok (k, ts)
      | none => .error (.form (.unknownVariant name kindNames))
    else .error illFormed

/-- Reads a kind: its name, or an object with the name as its only key and null as its value. -/
def readKind (levels : Nat) : Reader Kind
  | .openBrace :: ts =>
    if levels = 0 then .error illFormed
    else do
      let (k, ts) ← readKindName ts
      let ((), ts) ← Json.Read.colon ts
      let ((), ts) ← Json.Read.unit ts
      match ts with
      | [] => .error unfinished
      | .closeBrace :: ts => .ok (k, ts)
      | _ => .error illFormed
  | ts => readKindName ts

/-- Reads a distribution: a number, or an array of numbers. Other JSON is first read to its end. -/
def readDistribution (levels : Nat) : Reader (Distribution Float) := fun ts => do
  let ((), rest) ← Json.Read.any levels ts
  match Json.Read.float ts with
  | .ok (p, _) => .ok (.single p, rest)
  | .error _ =>
    match Json.Read.list levels Json.Read.float ts with
    | .ok (ps, _) => .ok (.branches ps, rest)
    | .error _ => .error (.form (.noVariant "Distribution"))

/-- Reads the value of a field into a draft. -/
def readField (levels : Nat) (children : Reader (List (Region Float))) (f : Field) (d : Draft) :
    Reader Draft := fun ts => do
  match f with
  | .id =>
    let (x, ts) ← Json.Read.text ts
    .ok ({ d with id := some x }, ts)
  | .kind =>
    let (x, ts) ← readKind levels ts
    .ok ({ d with kind := some x }, ts)
  | .label =>
    let (x, ts) ← Json.Read.optional Json.Read.text ts
    .ok ({ d with label := some x }, ts)
  | .duration =>
    let (x, ts) ← Json.Read.float ts
    .ok ({ d with duration := some x }, ts)
  | .impacts =>
    let (x, ts) ← Json.Read.optional (Json.Read.list levels Json.Read.float) ts
    .ok ({ d with impacts := some x }, ts)
  | .children =>
    let (x, ts) ← Json.Read.optional children ts
    .ok ({ d with children := some x }, ts)
  | .distribution =>
    let (x, ts) ← Json.Read.optional (readDistribution levels) ts
    .ok ({ d with distribution := some x }, ts)
  | .bound =>
    let (x, ts) ← Json.Read.optional Json.Read.float ts
    .ok ({ d with bound := some x }, ts)

/-- Reads a member of an object. No field may come twice; unknown members are skipped. -/
def readMember (levels : Nat) (children : Reader (List (Region Float))) (key : String)
    (d : Draft) : Reader Draft := fun ts => do
  match Field.ofName? key with
  | some f =>
    if d.has f then .error (.form (.duplicateField f.name))
    else
      let ((), ts) ← Json.Read.colon ts
      readField levels children f d ts
  | none =>
    let ((), ts) ← Json.Read.colon ts
    let ((), ts) ← Json.Read.skip ts
    .ok (d, ts)

/-- Reads the elements of an array as the given fields, until there are no more of either. -/
def readFields (levels : Nat) (children : Reader (List (Region Float))) :
    List Field → Bool → Draft → Reader Draft
  | [], _, d, ts => .ok (d, ts)
  | f :: fs, first, d, ts => do
    let (more, ts) ← Json.Read.nextElement first ts
    if more then
      let (d, ts) ← readField levels children f d ts
      readFields levels children fs false d ts
    else .ok (d, ts)

/-- Reads a region that is written as an array, after its opening bracket. -/
def readPositional (levels : Nat) (children : Reader (List (Region Float))) :
    Reader (Region Float) := fun ts => do
  let (d, ts) ← readFields levels children Field.all true .empty ts
  match d.finish with
  | .error _ =>
    let length := (Field.all.takeWhile d.has).length
    .error (.form (.invalidLength length "struct Region with 8 elements"))
  | .ok r =>
    let ((), ts) ← Json.Read.closeArray ts
    .ok (r, ts)

/-- Reads a region that is written as an object, after its opening brace. -/
def readObject (levels : Nat) (children : Reader (List (Region Float))) :
    Reader (Region Float) := fun ts => do
  let (d, ts) ← Json.Read.members (readMember levels children) (ts.length + 1) true .empty ts
  match d.finish with
  | .error m => .error (.form m)
  | .ok r => .ok (r, ts)

/-- Reads a region, with some levels of brackets left. -/
def read : Nat → Reader (Region Float)
  | 0, .openBrace :: _ => .error illFormed
  | 0, .openBracket :: _ => .error illFormed
  | levels + 1, .openBrace :: ts => readObject levels (children levels) ts
  | levels + 1, .openBracket :: ts => readPositional levels (children levels) ts
  | _, ts => .error (Json.Read.surprise "struct Region" ts)
where
  /-- Reads the children of a region. -/
  children : Nat → Reader (List (Region Float))
  | 0 => Json.Read.list 0 (fun _ => .error illFormed)
  | levels + 1 => Json.Read.list (levels + 1) (read levels)

/-- Reads the text of a region document. -/
def ofDocument (s : String) : Except ReadError (Region Float) := do
  let (r, rest) ← read Json.maxDepth (Json.tokens s.toList)
  if rest.isEmpty then .ok r else .error illFormed

/-! ## Writing -/

def distributionJson : Distribution Float → Json
  | .single p => .number p
  | .branches ps => .array (ps.map .number)

mutual

/-- The JSON form of a region. -/
def toJson (r : Region Float) : Json :=
  match r with
  | ⟨id, kind, label, duration, impacts, children, distribution, bound⟩ =>
    .present
      [(Field.id.name, some (.string id)),
       (Field.kind.name, some (.string kind.keyword)),
       (Field.label.name, label.map .string),
       (Field.duration.name, some (.number duration)),
       (Field.impacts.name, impacts.map fun v => .array (v.map .number)),
       (Field.children.name, match children with
          | some cs => some (.array (toJsons cs))
          | none => none),
       (Field.distribution.name, distribution.map distributionJson),
       (Field.bound.name, bound.map .number)]
termination_by structural r

def toJsons : List (Region Float) → List Json
  | [] => []
  | r :: rs => r.toJson :: toJsons rs
termination_by structural rs => rs

end

end Region

end RegionNet
