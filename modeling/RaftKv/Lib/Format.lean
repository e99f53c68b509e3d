import Mathlib.Logic.Basic

/-!
# Encodings

`Serde` is all that a program relies on: decoding returns what was encoded. `Format` is a way to
get one for concrete types, from readers that return the rest of the input; its combinators follow
the shape of the type.
-/

/-- An encoding of `α` into `V` that decodes what it encodes. -/
structure Serde (V α : Type) where
  ser : α → V
  de : V → Except String α
  de_ser : ∀ a, de (ser a) = .ok a

/-- Of an encoding that is cut off nothing can be decoded. -/
def Serde.Whole {E α : Type} (s : Serde (List E) α) : Prop := ∀ a n, n < (s.ser a).length →
    ∀ b, s.de ((s.ser a).take n) ≠ .ok b

/-- A self-delimiting encoding; its reader does not look behind what it takes. -/
structure Format (α : Type) where
  write : α → List UInt8
  read : List UInt8 → Option (α × List UInt8)
  read_write : ∀ a rest, read (write a ++ rest) = some (a, rest)
  read_append : ∀ {bytes a rest} (more : List UInt8), read bytes = some (a, rest) →
    read (bytes ++ more) = some (a, rest ++ more)

namespace Format

variable {α β : Type}

def serde (f : Format α) : Serde (List UInt8) α where
  ser := f.write
  de bytes := match f.read bytes with
    | some (a, _) => .ok a
    | none => .error "unexpected end of input"
  de_ser a := by
    have h := f.read_write a []
    rw [List.append_nil] at h
    rw [h]

theorem serde_whole (f : Format α) : f.serde.Whole := by
  intro a n hn b h
  have hcut : n < (f.write a).length := hn
  have hde : (match f.read ((f.write a).take n) with
      | some (x, _) => Except.ok x
      | none => .error "unexpected end of input") = .ok b := h
  cases hr : f.read ((f.write a).take n) with
  | none => rw [hr] at hde; cases hde
  | some p =>
    -- with the rest of the input the reader would leave it unread
    have hall := f.read_append ((f.write a).drop n) hr
    have hwhole := f.read_write a []
    rw [List.append_nil] at hwhole
    rw [List.take_append_drop, hwhole] at hall
    have hnil : p.2 ++ (f.write a).drop n = [] := by
      injection hall with hall
      exact (congrArg Prod.snd hall).symm
    have hlen := congrArg List.length hnil
    rw [List.length_append, List.length_drop, List.length_nil] at hlen
    omega

def byte : Format UInt8 where
  write b := [b]
  read
    | [] => none
    | b :: rest => some (b, rest)
  read_write _ _ := rfl
  read_append {bytes _ _} _ h := by
    cases bytes with
    | nil => cases h
    | cons b bytes => cases h; rfl

/-- The number of leading ones. -/
def readNat : List UInt8 → Option (Nat × List UInt8)
  | [] => none
  | b :: rest => if b = 0 then some (0, rest) else (readNat rest).map fun p => (p.1 + 1, p.2)

theorem readNat_append (more : List UInt8) : ∀ {bytes rest : List UInt8} {n : Nat},
    readNat bytes = some (n, rest) → readNat (bytes ++ more) = some (n, rest ++ more)
  | [], _, _, h => by cases h
  | b :: bytes, rest, n, h => by
    rw [readNat] at h
    rw [List.cons_append, readNat]
    split at h
    · rename_i hb
      cases h
      rw [if_pos hb]
    · rename_i hb
      obtain ⟨p, hp, heq⟩ := Option.map_eq_some_iff.1 h
      cases heq
      rw [if_neg hb, readNat_append more hp]
      rfl

/-- A number in unary: as many ones, then a zero. -/
def nat : Format Nat where
  write n := List.replicate n 1 ++ [0]
  read := readNat
  read_write n rest := by
    induction n with
    | zero => rfl
    | succ n ih =>
      rw [List.replicate_succ, List.cons_append, List.cons_append, readNat, if_neg (by decide), ih]
      rfl
  read_append more h := readNat_append more h

def pair (f : Format α) (h : Format β) : Format (α × β) where
  write p := f.write p.1 ++ h.write p.2
  read bytes := (f.read bytes).bind fun p => (h.read p.2).map fun q => ((p.1, q.1), q.2)
  read_write p rest := by
    rw [List.append_assoc, f.read_write, Option.bind_some, h.read_write]
    rfl
  read_append more hr := by
    obtain ⟨p, hp, hr⟩ := Option.bind_eq_some_iff.1 hr
    obtain ⟨q, hq, heq⟩ := Option.map_eq_some_iff.1 hr
    cases heq
    rw [f.read_append more hp, Option.bind_some, h.read_append more hq]
    rfl

/-- One of two, told apart by a leading byte. -/
def sum (f : Format α) (h : Format β) : Format (α ⊕ β) where
  write
    | .inl a => 0 :: f.write a
    | .inr b => 1 :: h.write b
  read
    | [] => none
    | b :: rest => if b = 0 then (f.read rest).map fun p => (.inl p.1, p.2)
        else (h.read rest).map fun p => (.inr p.1, p.2)
  read_write x rest := by
    cases x with
    | inl a =>
      rw [List.cons_append]
      simp only [if_true, f.read_write, Option.map_some]
    | inr b =>
      rw [List.cons_append]
      simp only [show (1 : UInt8) ≠ 0 by decide, if_false, h.read_write, Option.map_some]
  read_append {bytes _ _} more hr := by
    cases bytes with
    | nil => cases hr
    | cons b bytes =>
      rw [List.cons_append]
      dsimp only at hr ⊢
      split at hr
      · rename_i hb
        obtain ⟨p, hp, heq⟩ := Option.map_eq_some_iff.1 hr
        cases heq
        rw [if_pos hb, f.read_append more hp]
        rfl
      · rename_i hb
        obtain ⟨p, hp, heq⟩ := Option.map_eq_some_iff.1 hr
        cases heq
        rw [if_neg hb, h.read_append more hp]
        rfl

def readMany (f : Format α) : Nat → List UInt8 → Option (List α × List UInt8)
  | 0, bytes => some ([], bytes)
  | n + 1, bytes => (f.read bytes).bind fun p => (readMany f n p.2).map fun q => (p.1 :: q.1, q.2)

theorem readMany_flatMap (f : Format α) (as : List α) (rest : List UInt8) :
    f.readMany as.length (as.flatMap f.write ++ rest) = some (as, rest) := by
  induction as with
  | nil => rfl
  | cons a as ih =>
    rw [List.length_cons, readMany, List.flatMap_cons, List.append_assoc, f.read_write, Option.bind_some, ih]
    rfl

theorem readMany_append (f : Format α) (more : List UInt8) : ∀ {n : Nat} {bytes rest : List UInt8} {as : List α},
    f.readMany n bytes = some (as, rest) → f.readMany n (bytes ++ more) = some (as, rest ++ more)
  | 0, _, _, _, h => by cases h; rfl
  | n + 1, bytes, rest, as, h => by
    obtain ⟨p, hp, h⟩ := Option.bind_eq_some_iff.1 h
    obtain ⟨q, hq, heq⟩ := Option.map_eq_some_iff.1 h
    cases heq
    rw [readMany, f.read_append more hp, Option.bind_some, readMany_append f more hq]
    rfl

/-- The length, then the members. -/
def list (f : Format α) : Format (List α) where
  write as := nat.write as.length ++ as.flatMap f.write
  read bytes := (nat.read bytes).bind fun p => f.readMany p.1 p.2
  read_write as rest := by
    rw [List.append_assoc, nat.read_write, Option.bind_some, f.readMany_flatMap]
  read_append more hr := by
    obtain ⟨p, hp, hr⟩ := Option.bind_eq_some_iff.1 hr
    rw [nat.read_append more hp, Option.bind_some]
    exact f.readMany_append more hr

/-- The encoding of a type through another one. -/
def via (f : Format α) (forth : β → α) (back : α → β) (h : ∀ b, back (forth b) = b) : Format β where
  write b := f.write (forth b)
  read bytes := (f.read bytes).map fun p => (back p.1, p.2)
  read_write b rest := by rw [f.read_write, Option.map_some, h]
  read_append more hr := by
    obtain ⟨p, hp, heq⟩ := Option.map_eq_some_iff.1 hr
    cases heq
    rw [f.read_append more hp]
    rfl

def bytes : Format (List UInt8) := byte.list

theorem length_bytes (l : List UInt8) : (bytes.write l).length = 2 * l.length + 1 := by
  show (nat.write l.length ++ l.flatMap byte.write).length = _
  simp [nat, byte]
  omega

def unit : Format Unit where
  write _ := []
  read bytes := some ((), bytes)
  read_write _ _ := rfl
  read_append _ h := by cases h; rfl

def option (f : Format α) : Format (Option α) :=
  (unit.sum f).via (fun | none => .inl () | some a => .inr a) (fun | .inl _ => none | .inr a => some a)
    (fun o => by cases o <;> rfl)

def bool : Format Bool :=
  (unit.sum unit).via (fun | false => .inl () | true => .inr ()) (fun | .inl _ => false | .inr _ => true)
    (fun b => by cases b <;> rfl)

end Format
