import Mathlib.Data.List.Sort
import RaftKv.Lib.Bytes
import RaftKv.Lib.Linearizable

/-!
# The linearizability checker

`sim/src/wgl.rs`: a depth-first search over which operation takes effect next, memoized on the set
of operations done and the value of the register, for each key of the history alone.

| here | there |
| --- | --- |
| `HOp`, `HRes`, `HRecord` | the recorded history (`sim/src/history.rs:8-37`) |
| `POp`, `PKind`           | an operation on one key, prepared for the search (`wgl.rs:27-48`) |
| `tryApply`               | `try_apply` (`wgl.rs:52`) |
| `checkKey`, `search`     | `check_key` (`wgl.rs:75`) and its `while` loop |
| `checkHistory`           | `check_history` (`wgl.rs:156`) |
| `CheckError`             | the error texts, by what they report; `CheckError.text` renders them |

A set of operations is the number whose bits the words of the source's `Vec<u64>` hold; the memo is
a list. The stack has its top first.
-/

namespace RaftKv

inductive HOp where
  | read (key : UInt8)
  | write (key : UInt8) (val : UInt64)
  | cas (key : UInt8) (expect : Option UInt64) (new : UInt64)
deriving DecidableEq, Repr

def HOp.key : HOp → UInt8
  | .read key | .write key _ | .cas key _ _ => key

inductive HRes where
  | readOk (v : Option UInt64)
  | writeOk
  | casOk (success : Bool)
deriving DecidableEq, Repr

structure HRecord where
  client : UInt64
  invoke : UInt64
  ret : Option UInt64
  op : HOp
  result : Option HRes
deriving DecidableEq, Repr

inductive PKind where
  /-- A completed read that observed this value. -/
  | read (result : Option UInt64)
  | write (val : UInt64)
  /-- No `success` is a pending call. -/
  | cas (expect : Option UInt64) (new : UInt64) (success : Option Bool)
deriving DecidableEq, Repr

structure POp where
  invoke : UInt64
  ret : Option UInt64
  kind : PKind
  client : UInt64
deriving DecidableEq, Repr

/-- Does the recorded response hold up on a register with `value`, and what is in it afterwards? -/
def tryApply (kind : PKind) (value : Option UInt64) : Option (Option UInt64) :=
  match kind with
  | .read result => if result = value then some value else none
  | .write val => some (some val)
  | .cas expect new success =>
    let wouldSucceed := decide (value = expect)
    if success = some (!wouldSucceed) then none else some (if wouldSucceed then some new else value)

/-! ## Errors -/

inductive CheckError where
  | tooManyOps (n : Nat)
  | budgetExceeded (states n : Nat)
  /-- With the operations sorted by invocation. -/
  | notLinearizable (ops : List POp)
  | malformedCas (res : Option HRes)
  | malformedRecord (op : HOp) (res : Option HRes)
  | onKey (key : UInt8) (e : CheckError)
deriving DecidableEq, Repr

/-- The `Debug` text of an optional value. -/
def debugOption {α : Type} (show' : α → String) : Option α → String
  | some a => "Some(" ++ show' a ++ ")"
  | none => "None"

def debugValue : Option UInt64 → String := debugOption toString

def debugFields (name : String) (fields : List (String × String)) : String :=
  name ++ " \x7b " ++ String.intercalate ", " (fields.map fun f => f.1 ++ ": " ++ f.2) ++ " \x7d"

def PKind.debug : PKind → String
  | .read result => debugFields "Read" [("result", debugValue result)]
  | .write val => debugFields "Write" [("val", toString val)]
  | .cas expect new success => debugFields "Cas"
      [("expect", debugValue expect), ("new", toString new), ("success", debugOption toString success)]

def HOp.debug : HOp → String
  | .read key => debugFields "Read" [("key", toString key)]
  | .write key val => debugFields "Write" [("key", toString key), ("val", toString val)]
  | .cas key expect new => debugFields "Cas"
      [("key", toString key), ("expect", debugValue expect), ("new", toString new)]

def HRes.debug : HRes → String
  | .readOk v => "ReadOk(" ++ debugValue v ++ ")"
  | .writeOk => "WriteOk"
  | .casOk success => debugFields "CasOk" [("success", toString success)]

def POp.line (o : POp) : String :=
  "  client=" ++ toString o.client ++ " invoke=" ++ toString o.invoke ++ " ret=" ++ debugValue o.ret ++ " " ++
    o.kind.debug ++ "\n"

def CheckError.text : CheckError → String
  | .tooManyOps n => "too many ops for checker: " ++ toString n
  | .budgetExceeded states n =>
    "checker expansion budget exceeded (" ++ toString states ++ " states, " ++ toString n ++ " ops)"
  | .notLinearizable ops => "history NOT linearizable; ops (sorted by invoke):\n" ++ String.join (ops.map POp.line)
  | .malformedCas res => "malformed CAS result " ++ debugOption HRes.debug res
  | .malformedRecord op res => "malformed record " ++ op.debug ++ " / " ++ debugOption HRes.debug res
  | .onKey key e => "key " ++ toString key ++ ": " ++ e.text

/-! ## One key -/

def expansionBudget : Nat := 5000000

section search
variable (ops : List POp)

/-- The bits of the completed operations. -/
def completedMask : Nat := ops.zipIdx.foldl (fun m p => if p.1.ret.isSome then m ||| 1 <<< p.2 else m) 0

def done (mask : Nat) : Bool := mask &&& completedMask ops = completedMask ops

/-- The earlier of `m` and the response of an operation that is not in `mask`. -/
def earlierRet (mask : Nat) (m : UInt64) (p : POp × Nat) : UInt64 :=
  if mask.testBit p.2 then m
  else match p.1.ret with
    | some r => min m r
    | none => m

/-- The first response among the operations that are not in `mask`. -/
def minRet (mask : Nat) : UInt64 := ops.zipIdx.foldl (earlierRet mask) (UInt64.ofNat (2 ^ 64 - 1))

/-- The states one operation further: none may be invoked after a response that is still to come. -/
def successors (mask : Nat) (value : Option UInt64) : List (Nat × Option UInt64) :=
  ops.zipIdx.filterMap fun p =>
    if mask.testBit p.2 then none
    else if p.1.invoke > minRet ops mask then none
    else (tryApply p.1.kind value).map fun v => (mask ||| 1 <<< p.2, v)

theorem length_successors (mask : Nat) (value : Option UInt64) : (successors ops mask value).length ≤ ops.length := by
  refine (List.length_filterMap_le _ _).trans ?_
  rw [List.length_zipIdx]

def search (memo stack : List (Nat × Option UInt64)) (expansions : Nat) : Except CheckError Unit :=
  match stack with
  | [] => .error (.notLinearizable ops)
  | (mask, value) :: stack =>
    if done ops mask then .ok ()
    else if (mask, value) ∈ memo then search memo stack expansions
    else if expansions + 1 > expansionBudget then .error (.budgetExceeded (expansions + 1) ops.length)
    else search ((mask, value) :: memo) ((successors ops mask value).reverse ++ stack) (expansions + 1)
  -- an expansion uses up budget and pushes at most one state for each operation
  termination_by (expansionBudget - expansions) * (ops.length + 1) + stack.length
  decreasing_by
    · simp
    · have hlen := length_successors ops mask value
      obtain ⟨d, hd⟩ : ∃ d, expansionBudget - expansions = d + 1 := ⟨expansionBudget - expansions - 1, by omega⟩
      rw [show expansionBudget - (expansions + 1) = d by omega, hd, Nat.add_mul]
      simp only [List.length_append, List.length_reverse, List.length_cons]
      omega

end search

def checkKey (ops : List POp) : Except CheckError Unit :=
  let ops := ops.insertionSort fun a b => a.invoke ≤ b.invoke
  let n := ops.length
  if n = 0 then .ok ()
  else if n > 4096 then .error (.tooManyOps n)
  else search ops [] [(0, none)] 0

/-! ## The whole history -/

/-- The operation of a record; a pending read is left out. -/
def HRecord.prepare (r : HRecord) : Except CheckError (Option POp) :=
  let pop (kind : PKind) : POp := { invoke := r.invoke, ret := r.ret, kind, client := r.client }
  match r.op, r.result with
  | .read _, none => .ok none
  | .read _, some (.readOk v) => .ok (some (pop (.read v)))
  | .write _ val, _ => .ok (some (pop (.write val)))
  | .cas _ expect new, some (.casOk success) => .ok (some (pop (.cas expect new (some success))))
  | .cas _ expect new, none => .ok (some (pop (.cas expect new none)))
  | .cas .., other => .error (.malformedCas other)
  | op, res => .error (.malformedRecord op res)

def prepareAll : List HRecord → Except CheckError (List POp)
  | [] => .ok []
  | r :: rs => do
    let o ← r.prepare
    let os ← prepareAll rs
    return o.toList ++ os

def checkKeys (history : List HRecord) : List UInt8 → Except CheckError Unit
  | [] => .ok ()
  | key :: keys => do
    let ops ← prepareAll (history.filter fun r => r.op.key = key)
    (checkKey ops).mapError (.onKey key)
    checkKeys history keys

/-- The keys in ascending order, each once. -/
def checkHistory (history : List HRecord) : Except CheckError Unit :=
  checkKeys history (((history.map fun r => r.op.key).insertionSort (· ≤ ·)).dedup)

end RaftKv
