import Octets.Store.Construction
import Octets.Store.Query
import Octets.Store.Request
/-!
Every operation on the store as data, and what it does. Besides the operations on
sequences there are those of a caller on arrays it holds. Only mutable sequences
write: through transforms, through the operations that change content, and on leaving
a block that has been entered, which zeroes the storage. Core Lean only.
-/
namespace Octets

/-- Ways from one sequence to another. -/
inductive Conversion
  | toImmutable
  | toMutable
  | toReadOnly
  | duplicate
  | withOrder (order : Option String)
  | slice (start stop step : Option Int)

/-- Changes of content. -/
inductive Mutation
  | wipe
  | fill (v : Int)
  | secureWipe (g : Generator)
  | overwrite (data : Operand) (offset : Int)
  | setByteAt (i v : Int)

/-- Ways to get at the storage of a sequence. -/
inductive Exposure
  | array
  /-- The storage itself whatever the variant, for trusted callers. -/
  | storage
  | view

/-- What a caller does with arrays and views it holds. -/
inductive CallerAction
  | create (data : Operand)
  | set (b : BufferId) (i v : Int)
  | push (b : BufferId) (v : Int)
  /-- New content of any length. -/
  | assign (b : BufferId) (x : Bytes)
  | writeView (v : ViewId)
  | release (v : ViewId)

inductive Call
  | construct (v : Variant) (c : Construction)
  | query (s : SequenceId) (q : Query)
  | sameHash (s t : SequenceId)
  | rank (ss : List SequenceId)
  | request (s : SequenceId) (r : Request)
  | convert (s : SequenceId) (c : Conversion)
  | mutate (s : SequenceId) (m : Mutation)
  /-- Enter a sequence as a block; `interrupted` says that the block ends in a fault. -/
  | enclose (s : SequenceId) (interrupted : Bool)
  | leave (s : SequenceId)
  | expose (s : SequenceId) (e : Exposure)
  | caller (a : CallerAction)

/-- The operation's name, as a refusal gives it. -/
def Mutation.name : Mutation → String
  | wipe => "wipe"
  | fill _ => "fill"
  | secureWipe _ => "secure_wipe"
  | overwrite .. => "overwrite"
  | setByteAt .. => "set_byte_at"

/-- The content after a change, if the change fits the content `x`. -/
def Mutation.result (σ : Store) (x : Bytes) : Mutation → Outcome Bytes
  | wipe => .ok (Bytes.zeros x.length)
  | fill v => .ok (List.replicate x.length (Bytes.ofInt v))
  | secureWipe g => (g.bytes x.length).map (·.val)
  | overwrite data offset => do
    let source ← σ.read data
    let stop := offset + source.length
    if offset < 0 ∨ x.length < stop then .error (.overwriteOutside offset stop x.length)
    else .ok (Layout.splice x source offset.toNat)
  | setByteAt i v =>
    if i < 0 ∨ x.length ≤ i then .error (.byteOutside i x.length)
    else .ok (x.set i.toNat (Bytes.ofInt v))

namespace StoreM

/-- What a call may go on from: a sequence that is mutable; others are refused. -/
def mutableOnly (operation : String) (s : SequenceId) : StoreM Sequence :=
  reading fun σ => do
    let q ← σ.sequence? s
    if q.variant = .mutable then .ok q else .error (.unsupported operation q.variant)

def convert (s : SequenceId) (c : Conversion) : StoreM SequenceId := do
  let q ← reading (·.sequence? s)
  let x ← reading (·.buffer? q.buffer)
  match c with
  | .toImmutable => create .immutable q.order x
  | .toMutable => create .mutable q.order x
  | .toReadOnly => if q.variant = .readOnly then pure s else adopt .readOnly q.order q.buffer
  | .duplicate => adopt q.variant q.order q.buffer
  | .withOrder order => do
    let o ← reading fun _ => ByteOrder.named order
    adopt q.variant o q.buffer
  | .slice start stop step => do
    let y ← reading fun _ => Layout.slice start stop step x
    create q.variant q.order y

def mutate (s : SequenceId) (m : Mutation) : StoreM SequenceId := do
  let q ← mutableOnly m.name s
  let y ← reading fun σ => do m.result σ (← σ.buffer? q.buffer)
  write q.buffer y
  return s

/-- Zero the storage of a mutable sequence on leaving its block. -/
def leave (s : SequenceId) : StoreM Unit := do
  let q ← mutableOnly "auto-wipe" s
  let x ← reading (·.buffer? q.buffer)
  write q.buffer (Bytes.zeros x.length)

/-- Enter a mutable sequence as a block, look at it there, and leave: the storage is
zeroed also when the block ends in a fault. -/
def enclose (s : SequenceId) (interrupted : Bool) : StoreM Value := do
  let q ← mutableOnly "auto-wipe" s
  let x ← reading (·.buffer? q.buffer)
  leave s
  if interrupted then throw .interrupted
  return .entered true x

def expose (s : SequenceId) (e : Exposure) : StoreM Value := do
  let q ← reading (·.sequence? s)
  match e, q.variant with
  | .view, _ => return .view (← watch q.buffer)
  | .storage, _ | .array, .mutable => return .buffer q.buffer
  | .array, .immutable => return .buffer (← allocate (← reading (·.buffer? q.buffer)))
  | .array, .readOnly => throw (.unsupported "array" .readOnly)

/-- What the hash of a sequence is taken of: order and content, for an immutable one
those of the time it was first asked for. -/
def hashKey (s : SequenceId) : StoreM (Bytes × ByteOrder) := do
  let q ← reading (·.sequence? s)
  let x ← reading (·.buffer? q.buffer)
  match q.variant, q.hashed with
  | .immutable, some key => return key
  | .immutable, none => do
    remember s (x, q.order)
    return (x, q.order)
  | _, _ => return (x, q.order)

/-- A byte that an integer is. -/
def byteOf (v : Int) : Outcome UInt8 :=
  if 0 ≤ v ∧ v ≤ 255 then .ok (Bytes.ofInt v) else .error .byteValue

/-- New content for an array a caller holds; its length may not change while a live
view looks at it. -/
def assign (b : BufferId) (y : Bytes) : StoreM Value := do
  let x ← reading (·.buffer? b)
  if y.length ≠ x.length then
    reading fun σ => if σ.isViewed b then .error .viewed else .ok ()
  write b y
  return .done

/-- Perform what a caller asks for. An index that is no word is refused first; else the
byte is checked before its place is. -/
def act : CallerAction → StoreM Value
  | .create data => do
    let x ← reading (·.read data)
    return .buffer (← allocate x)
  | .set b i v => do
    let x ← reading (·.buffer? b)
    reading fun _ => if Layout.isWord i then .ok () else .error .indexOutside
    let y ← reading fun _ => byteOf v
    match Layout.index? x.length i with
    | none => throw .indexOutside
    | some k => do
      write b (x.set k y)
      return .done
  | .push b v => do
    let x ← reading (·.buffer? b)
    let y ← reading fun _ => byteOf v
    assign b (x ++ [y])
  | .assign b y => assign b y
  | .writeView v => do
    let _ ← reading (·.view? v)
    throw .notWritable
  | .release v => do
    release v
    return .done

end StoreM

/-- Perform a call. -/
def Call.perform : Call → StoreM Value
  | construct v c => .sequence <$> StoreM.construct v c
  | query s q => StoreM.reading (·.query s q)
  | sameHash s t => do
    let a ← StoreM.hashKey s
    let b ← StoreM.hashKey t
    return .bool (a = b)
  | rank ss => StoreM.reading fun σ => (σ.rank ss).map .sequences
  | request s r => .sequence <$> StoreM.request s r
  | convert s c => .sequence <$> StoreM.convert s c
  | mutate s m => .sequence <$> StoreM.mutate s m
  | enclose s interrupted => StoreM.enclose s interrupted
  | leave s => do
    StoreM.leave s
    return .bool false
  | expose s e => StoreM.expose s e
  | caller a => StoreM.act a

/-- Perform a call on a store: its outcome and the store after it. -/
def Call.run (c : Call) (σ : Store) : Outcome Value × Store := (c.perform.run).run σ

end Octets
