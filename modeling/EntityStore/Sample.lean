import EntityStore.Record

/-!
# A sample schema

One record type of every shape: numbers, handles owned directly, handles nested in lists and
options, text, nothing at all, and two types whose tables share a name.
-/
namespace EntityStore.Sample

inductive Kind
  | pos | vel | sprite | scene | tag | marker | wrap8 | wrap64
  deriving DecidableEq, Repr

structure Pos where
  x : Int64
  y : Int64
  deriving DecidableEq

structure Vel where
  across : Int32
  along : Int32
  deriving DecidableEq

structure Sprite where
  texture : HandleId
  palette : Option HandleId
  layer : UInt8
  deriving DecidableEq

structure Scene where
  parts : List (Option HandleId)
  depth : Int64
  pair : HandleId × HandleId
  deriving DecidableEq

abbrev Row : Kind → Type
  | .pos => Pos
  | .vel => Vel
  | .sprite => Sprite
  | .scene => Scene
  | .tag => String
  | .marker => Unit
  | .wrap8 => UInt8
  | .wrap64 => UInt64

/-- The name that a record type is declared under. -/
def Kind.declared : Kind → String
  | .pos => "Pos"
  | .vel => "Vel"
  | .sprite => "Sprite"
  | .scene => "Scene"
  | .tag => "Tag"
  | .marker => "Marker"
  | .wrap8 => "Wrap<u8>"
  | .wrap64 => "Wrap<u64>"

def Kind.tableName : Kind → String
  | .vel => "velocities"
  | .scene => "scene graph"
  | .wrap8 | .wrap64 => "Wrap"
  | k => k.declared

def Kind.fields : Kind → List Field
  | .pos => [⟨"x", "i64", 8⟩, ⟨"y", "i64", 8⟩]
  | .vel => [⟨"0", "i32", 4⟩, ⟨"1", "i32", 4⟩]
  | .sprite =>
    [⟨"texture", "HandleId", 8⟩, ⟨"palette", "Option < HandleId >", 12⟩, ⟨"layer", "u8", 1⟩]
  | .scene =>
    [⟨"parts", "Vec < Option < HandleId > >", 24⟩, ⟨"depth", "i64", 8⟩,
      ⟨"pair", "[HandleId; 2]", 16⟩]
  | .tag => [⟨"0", "String", 24⟩]
  | .marker => []
  | .wrap8 => [⟨"inner", "T", 1⟩]
  | .wrap64 => [⟨"inner", "T", 8⟩]

def optional : Option HandleId → References
  | none => .absent
  | some h => .present (.one h)

def owned : (k : Kind) → Row k → References
  | .sprite, s => .many [.one s.texture, optional s.palette]
  | .scene, s =>
    .many [.many (s.parts.map optional), .many [.one s.pair.1, .one s.pair.2]]
  | _, _ => .absent

instance record (k : Kind) : Record (Row k) := ⟨k.tableName, k.fields, owned k⟩

/-- The schema of these types as they are called when declared under the path `home`. -/
@[reducible] def schema (home : String) : Schema Kind where
  Row := Row
  typeName k := home ++ k.declared
  record := record

def key : (k : Kind) → Row k → Int64
  | .pos, r => r.x
  | .vel, r => r.along.toInt64
  | .sprite, r => r.layer.toUInt64.toInt64
  | .scene, r => r.depth
  | .tag, s => Int64.ofNat s.length
  | .marker, _ => 0
  | .wrap8, n => n.toUInt64.toInt64
  | .wrap64, n => n.toInt64

/-- Changes a record by a number. Sums wrap; a text grows by the number in decimal. -/
def bump (n : Int64) : (k : Kind) → Row k → Row k
  | .pos, r => { r with x := r.x + n }
  | .vel, r => { r with along := r.along + n.toInt32 }
  | .sprite, r => { r with layer := r.layer + n.toUInt64.toUInt8 }
  | .scene, r => { r with depth := r.depth + n }
  | .tag, s => s ++ toString n.toInt
  | .marker, r => r
  | .wrap8, m => m + n.toUInt64.toUInt8
  | .wrap64, m => m + n.toUInt64

end EntityStore.Sample
