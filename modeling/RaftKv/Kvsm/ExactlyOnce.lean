import Mathlib.Data.List.Induction
import RaftKv.Kvsm.StateMachine

/-!
# Exactly-once apply

The log may hold a command several times, and retries of a client that has moved on. The state
machine executes a command unless its session has already executed one with this or a later
sequence number (`StateMachine::apply`, `kvsm/src/lib.rs:146`), and the table that decides this
travels in snapshots. `exactly_once` describes the whole state in terms of the history alone: the
contents are those of executing the accepted commands in order, and the table knows the latest
accepted command of each session with its result.

| here | there |
| --- | --- |
| `Command.Fresh`       | the command is not refused by the table: `session_id == 0`, or its seq is above all earlier ones |
| `contents`            | what executing only the accepted commands leaves |
| `Latest`              | the command a session's table entry stands for |
| `Act.transfer`        | `snapshot()` followed by `restore()` into another state machine |
-/

namespace RaftKv

open List

variable {B : Type} [Backend B]

/-! ## The history -/

/-- `c` has no session, or its seq is above that of every earlier command of its session. -/
def Command.Fresh (c : Command) (earlier : List Command) : Prop :=
  c.sessionId = 0 ∨ ∀ e ∈ earlier, e.sessionId = c.sessionId → e.seq < c.seq

instance (c : Command) (earlier : List Command) : Decidable (c.Fresh earlier) := by
  unfold Command.Fresh
  infer_instance

/-- The accepted ones among the commands that follow `earlier`. -/
def acceptedFrom (earlier : List Command) : List Command → List Command
  | [] => []
  | c :: cs =>
    if c.Fresh earlier then c :: acceptedFrom (earlier ++ [c]) cs else acceptedFrom (earlier ++ [c]) cs

def accepted (cmds : List Command) : List Command := acceptedFrom [] cmds

theorem acceptedFrom_concat (c : Command) : ∀ (cs earlier : List Command),
    acceptedFrom earlier (cs ++ [c]) = acceptedFrom earlier cs ++ if c.Fresh (earlier ++ cs) then [c] else []
  | [], earlier => by
    simp only [nil_append, acceptedFrom, append_nil]
  | x :: cs, earlier => by
    have ih := acceptedFrom_concat c cs (earlier ++ [x])
    rw [append_assoc, singleton_append] at ih
    rw [cons_append, acceptedFrom, acceptedFrom, ih]
    split
    · rw [cons_append]
    · rfl

theorem accepted_concat (cs : List Command) (c : Command) :
    accepted (cs ++ [c]) = accepted cs ++ if c.Fresh cs then [c] else [] := acceptedFrom_concat c cs []

theorem acceptedFrom_append (ys : List Command) : ∀ (xs earlier : List Command),
    acceptedFrom earlier (xs ++ ys) = acceptedFrom earlier xs ++ acceptedFrom (earlier ++ xs) ys
  | [], earlier => by simp [acceptedFrom]
  | x :: xs, earlier => by
    have ih := acceptedFrom_append ys xs (earlier ++ [x])
    rw [append_assoc] at ih
    rw [cons_append, acceptedFrom, acceptedFrom, ih]
    split <;> rfl

theorem accepted_append (xs ys : List Command) : accepted (xs ++ ys) = accepted xs ++ acceptedFrom xs ys :=
  acceptedFrom_append ys xs []

/-- A fresh command is accepted where it stands. -/
theorem accepted_of_fresh {c : Command} {p : List Command} (h : c.Fresh p) (q : List Command) :
    accepted (p ++ c :: q) = accepted p ++ c :: acceptedFrom (p ++ [c]) q := by
  rw [accepted_append, acceptedFrom, if_pos h]

variable {cmds : List Command}

theorem mem_accepted {c : Command} (h : c ∈ accepted cmds) : ∃ p q, cmds = p ++ c :: q ∧ c.Fresh p := by
  induction cmds using List.reverseRecOn with
  | nil => cases h
  | append_singleton cs x ih =>
    rw [accepted_concat] at h
    rcases mem_append.1 h with h | h
    · obtain ⟨p, q, rfl, hf⟩ := ih h
      exact ⟨p, q ++ [x], by simp, hf⟩
    · split at h
      · rename_i hf
        obtain rfl := mem_singleton.1 h
        exact ⟨cs, [], rfl, hf⟩
      · cases h

/-- Commands of sessions are accepted in the order of their seq, hence at most once. -/
theorem accepted_nodup (h : ∀ c ∈ cmds, c.sessionId ≠ 0) : (accepted cmds).Nodup := by
  induction cmds using List.reverseRecOn with
  | nil => exact nodup_nil
  | append_singleton cs x ih =>
    rw [accepted_concat]
    have hcs := ih fun c hc => h c (mem_append_left _ hc)
    split
    · rename_i hf
      refine nodup_append.2 ⟨hcs, nodup_singleton x, fun a ha b hb => ?_⟩
      obtain rfl := mem_singleton.1 hb
      rintro rfl
      obtain ⟨p, q, rfl, _⟩ := mem_accepted ha
      have := hf.resolve_left (h a (by simp)) a (by simp) rfl
      omega
    · rw [append_nil]; exact hcs

/-- An operation on bare contents. -/
def executeOn (b : B) (op : Op) : OpResult × B :=
  let r := (StateMachine.new b).execute op
  (r.1, r.2.backend)

/-- The contents after the accepted commands of `cmds`, each executed once. -/
def contents (b : B) (cmds : List Command) : B := (accepted cmds).foldl (fun b c => (executeOn b c.op).2) b

/-- What executing `c` after `cmds` returns. -/
def resultAfter (b : B) (cmds : List Command) (c : Command) : OpResult := (executeOn (contents b cmds) c.op).1

theorem contents_concat (b : B) (cs : List Command) (c : Command) :
    contents b (cs ++ [c]) = if c.Fresh cs then (executeOn (contents b cs) c.op).2 else contents b cs := by
  unfold contents
  rw [accepted_concat, foldl_append]
  split <;> rfl

theorem StateMachine.execute_eq (sm : StateMachine B) (op : Op) :
    sm.execute op = ((executeOn sm.backend op).1, { sm with backend := (executeOn sm.backend op).2 }) := by
  cases op with
  | put key value => rfl
  | delete key => rfl
  | cas key expect new =>
    by_cases h : Backend.get sm.backend key = expect
    · have h' : Backend.get (StateMachine.new sm.backend).backend key = expect := h
      simp only [executeOn, execute, if_pos h, if_pos h']; rfl
    · have h' : ¬ Backend.get (StateMachine.new sm.backend).backend key = expect := h
      simp only [executeOn, execute, if_neg h, if_neg h']; rfl
  | get key => rfl

/-! ## The latest command of a session -/

/-- `d`, after the commands `p`, is the first command of session `s` with its greatest seq. -/
structure Latest (cmds : List Command) (s : Nat) (p : List Command) (d : Command) : Prop where
  session : d.sessionId = s
  split : ∃ q, cmds = p ++ d :: q ∧ ∀ e ∈ q, e.sessionId = s → e.seq ≤ d.seq
  first : ∀ e ∈ p, e.sessionId = s → e.seq < d.seq

section latest
variable {cmds p p' : List Command} {s : Nat} {c d d' : Command}

theorem Latest.mem (h : Latest cmds s p d) : d ∈ cmds := by
  obtain ⟨q, rfl, _⟩ := h.split
  simp

theorem Latest.le (h : Latest cmds s p d) {e : Command} (he : e ∈ cmds) (hs : e.sessionId = s) : e.seq ≤ d.seq := by
  obtain ⟨q, rfl, hq⟩ := h.split
  rcases mem_append.1 he with he | he
  · exact le_of_lt (h.first e he hs)
  · rcases mem_cons.1 he with rfl | he
    · exact le_refl _
    · exact hq e he hs

/-- The command is above all others of session `s`. -/
def Overtakes (cmds : List Command) (s : Nat) (c : Command) : Prop :=
  c.sessionId = s ∧ ∀ e ∈ cmds, e.sessionId = s → e.seq < c.seq

theorem Latest.of_concat (h : Latest (cmds ++ [c]) s p d) : (p = cmds ∧ d = c) ∨ Latest cmds s p d := by
  obtain ⟨q, hq, hle⟩ := h.split
  rcases eq_nil_or_concat q with rfl | ⟨q, x, rfl⟩
  · obtain ⟨rfl, hc⟩ := append_inj' hq rfl
    exact Or.inl ⟨rfl, (singleton_inj.1 hc).symm⟩
  · rw [concat_eq_append] at hq hle
    have hq' : cmds ++ [c] = (p ++ d :: q) ++ [x] := by rw [hq]; simp
    obtain ⟨rfl, _⟩ := append_inj' hq' rfl
    exact Or.inr ⟨h.session, ⟨q, rfl, fun e he => hle e (mem_append_left _ he)⟩, h.first⟩

theorem latest_concat_new (hnew : Overtakes cmds s c) : Latest (cmds ++ [c]) s p d ↔ p = cmds ∧ d = c := by
  refine ⟨fun h => ?_, ?_⟩
  · rcases h.of_concat with hpd | hold
    · exact hpd
    · have h1 := hnew.2 d hold.mem hold.session
      have h2 := h.le (mem_append_right _ (mem_singleton.2 rfl)) hnew.1
      omega
  · rintro ⟨rfl, rfl⟩
    exact ⟨hnew.1, ⟨[], rfl, fun e he => by cases he⟩, hnew.2⟩

theorem latest_concat_old (hold : ¬ Overtakes cmds s c) : Latest (cmds ++ [c]) s p d ↔ Latest cmds s p d := by
  refine ⟨fun h => ?_, fun h => ?_⟩
  · rcases h.of_concat with ⟨rfl, rfl⟩ | h
    · exact absurd ⟨h.session, h.first⟩ hold
    · exact h
  · obtain ⟨q, rfl, hq⟩ := h.split
    refine ⟨h.session, ⟨q ++ [c], by simp, fun e he hs => ?_⟩, h.first⟩
    rcases mem_append.1 he with he | he
    · exact hq e he hs
    · rw [mem_singleton.1 he] at hs ⊢
      by_contra hlt
      refine hold ⟨hs, fun e he hes => ?_⟩
      have := h.le he hes
      omega

/-- A session that has sent a command has a latest one. -/
theorem exists_latest (hc : c ∈ cmds) (hs : c.sessionId = s) : ∃ p d, Latest cmds s p d := by
  induction cmds using List.reverseRecOn generalizing c with
  | nil => cases hc
  | append_singleton cs x ih =>
    by_cases hnew : Overtakes cs s x
    · exact ⟨cs, x, (latest_concat_new hnew).2 ⟨rfl, rfl⟩⟩
    · obtain ⟨e, he, hes⟩ : ∃ e ∈ cs, e.sessionId = s := by
        rcases mem_append.1 hc with hc | hc
        · exact ⟨c, hc, hs⟩
        · by_contra hno
          rw [mem_singleton.1 hc] at hs
          exact hnew ⟨hs, fun e he hes => absurd ⟨e, he, hes⟩ hno⟩
      obtain ⟨p, d, h⟩ := ih he hes
      exact ⟨p, d, (latest_concat_old hnew).2 h⟩

/-- A command is accepted, or its session's latest is at or above it. -/
theorem fresh_or_latest (c : Command) (cmds : List Command) :
    c.Fresh cmds ∨ (c.sessionId ≠ 0 ∧ ∃ p d, Latest cmds c.sessionId p d ∧ c.seq ≤ d.seq) := by
  by_cases hf : c.Fresh cmds
  · exact Or.inl hf
  · simp only [Command.Fresh, not_or, not_forall, not_lt] at hf
    obtain ⟨h0, e, he, hs, hle⟩ := hf
    obtain ⟨p, d, h⟩ := exists_latest he hs
    exact Or.inr ⟨h0, p, d, h, le_trans hle (h.le he hs)⟩

end latest

/-! ## The state machine -/

/-- The state machine is what the history says. -/
structure Tracks (b : B) (cmds : List Command) (sm : StateMachine B) : Prop where
  backend_eq : sm.backend = contents b cmds
  session : ∀ s st, sm.sessions.find? s = some st ↔
    s ≠ 0 ∧ ∃ p d, Latest cmds s p d ∧ st = { lastSeq := d.seq, lastResult := resultAfter b p d }

section tracks
variable {b : B} {cmds p : List Command} {sm : StateMachine B} {c d : Command}

theorem Tracks.cached_fresh (h : Tracks b cmds sm) (hf : c.Fresh cmds) : sm.cached c = none := by
  unfold StateMachine.cached
  split
  · rename_i h0
    have hlt := hf.resolve_left h0
    cases hs : sm.sessions.find? c.sessionId with
    | none => rfl
    | some st =>
      obtain ⟨_, p, d, hl, rfl⟩ := (h.session _ _).1 hs
      have := hlt d hl.mem hl.session
      dsimp only
      rw [if_neg (by omega), if_neg (by omega)]
  · rfl

theorem Tracks.cached_latest (h : Tracks b cmds sm) (h0 : c.sessionId ≠ 0) (hl : Latest cmds c.sessionId p d)
    (hle : c.seq ≤ d.seq) : sm.cached c = some (if c.seq = d.seq then resultAfter b p d else .stale) := by
  unfold StateMachine.cached
  rw [if_pos h0, (h.session _ _).2 ⟨h0, p, d, hl, rfl⟩]
  dsimp only
  split
  · rfl
  · rw [if_pos (by omega)]

theorem Tracks.apply_fresh (h : Tracks b cmds sm) (hf : c.Fresh cmds) : (sm.apply c).1 = resultAfter b cmds c ∧
    Tracks b (cmds ++ [c]) (sm.apply c).2 := by
  have happly : sm.apply c = (resultAfter b cmds c,
      { backend := (executeOn (contents b cmds) c.op).2
        sessions := if c.sessionId ≠ 0 then
            sm.sessions.insert c.sessionId { lastSeq := c.seq, lastResult := resultAfter b cmds c }
          else sm.sessions }) := by
    simp only [StateMachine.apply, h.cached_fresh hf, StateMachine.execute_eq, h.backend_eq]
    split <;> rfl
  rw [happly]
  refine ⟨rfl, by rw [contents_concat, if_pos hf], fun s st => ?_⟩
  by_cases h0 : c.sessionId = 0
  · -- without a session the table stays
    rw [if_neg (not_not.2 h0), h.session s st]
    refine and_congr_right fun hs => ?_
    have hne : ¬ Overtakes cmds s c := fun h' => hs (h'.1.symm.trans h0)
    simp only [latest_concat_old hne]
  · rw [if_pos h0, OrdMap.find?_insert]
    split
    · rename_i hs
      subst hs
      have hnew : Overtakes cmds c.sessionId c := ⟨rfl, hf.resolve_left h0⟩
      simp only [latest_concat_new hnew]
      constructor
      · rintro ⟨⟩
        exact ⟨h0, cmds, c, ⟨rfl, rfl⟩, rfl⟩
      · rintro ⟨_, p, d, ⟨rfl, rfl⟩, rfl⟩
        rfl
    · rename_i hs
      have hne : ¬ Overtakes cmds s c := fun h' => hs h'.1.symm
      rw [h.session s st]
      simp only [latest_concat_old hne]

/-- A command that is not accepted leaves the state and the history's account of it as they are. -/
theorem Tracks.apply_latest (h : Tracks b cmds sm) (h0 : c.sessionId ≠ 0) (hl : Latest cmds c.sessionId p d)
    (hle : c.seq ≤ d.seq) :
    sm.apply c = (if c.seq = d.seq then resultAfter b p d else .stale, sm) ∧ Tracks b (cmds ++ [c]) sm := by
  refine ⟨by simp only [StateMachine.apply, h.cached_latest h0 hl hle], ?_, fun s st => ?_⟩
  · rw [contents_concat, if_neg, h.backend_eq]
    rintro (hz | hlt)
    · exact h0 hz
    · have := hlt d hl.mem hl.session
      omega
  · rw [h.session s st]
    have hne : ¬ Overtakes cmds s c := by
      rintro ⟨rfl, hlt⟩
      have := hlt d hl.mem hl.session
      omega
    simp only [latest_concat_old hne]

theorem Tracks.apply (h : Tracks b cmds sm) (c : Command) : Tracks b (cmds ++ [c]) (sm.apply c).2 := by
  rcases fresh_or_latest c cmds with hf | ⟨h0, p, d, hl, hle⟩
  · exact (h.apply_fresh hf).2
  · obtain ⟨happly, ht⟩ := h.apply_latest h0 hl hle
    rw [happly]; exact ht

theorem Tracks.init (b : B) : Tracks b [] (StateMachine.new b) := by
  refine ⟨rfl, fun s st => ⟨fun h => (by cases h), ?_⟩⟩
  rintro ⟨_, p, d, hl, _⟩
  cases hl.mem

end tracks

/-! ## Runs with snapshots -/

/-- What happens to the replicated state: a command is applied, or the state moves through a snapshot into another
state machine. -/
inductive Act (B : Type) where
  | apply (cmd : Command)
  | transfer (target : StateMachine B)

namespace Act

def command? : Act B → Option Command
  | .apply cmd => some cmd
  | .transfer _ => none

def perform (P : Serde Bytes SnapshotPayload) (sm : StateMachine B) : Act B → Option (StateMachine B)
  | .apply cmd => some (sm.apply cmd).2
  | .transfer target => target.restore P (sm.snapshot P)

def performAll (P : Serde Bytes SnapshotPayload) : StateMachine B → List (Act B) → Option (StateMachine B)
  | sm, [] => some sm
  | sm, a :: as => (a.perform P sm).bind fun sm => performAll P sm as

end Act

theorem Tracks.performAll [LawfulBackend B] (P : Serde Bytes SnapshotPayload) {b : B}
    {sm : StateMachine B} (h : Tracks b cmds sm) (acts : List (Act B)) :
    ∃ sm', Act.performAll P sm acts = some sm' ∧ Tracks b (cmds ++ acts.filterMap Act.command?) sm' := by
  induction acts generalizing cmds sm with
  | nil => exact ⟨sm, rfl, by rw [filterMap_nil, append_nil]; exact h⟩
  | cons a acts ih =>
    cases a with
    | apply cmd =>
      obtain ⟨sm', hsm, ht⟩ := ih (h.apply cmd)
      refine ⟨sm', hsm, ?_⟩
      rw [append_assoc] at ht
      exact ht
    | transfer target =>
      obtain ⟨sm', hsm, ht⟩ := ih h
      refine ⟨sm', ?_, ht⟩
      simp only [Act.performAll, Act.perform, StateMachine.restore_snapshot]
      exact hsm

/-- Exactly-once apply. After any commands, with the state moved through snapshots at any points: the contents are
those of executing only the accepted commands, in order; the table maps each session to its greatest seq and the
result of that command's one execution; and a further command is executed if it is fresh, answered with that result
and nothing changed if it repeats the greatest seq, and answered `stale` and nothing changed if it is below. -/
theorem exactly_once [LawfulBackend B] (P : Serde Bytes SnapshotPayload) (b : B) (acts : List (Act B)) :
    ∃ sm, Act.performAll P (StateMachine.new b) acts = some sm ∧
      let cmds := acts.filterMap Act.command?
      sm.backend = contents b cmds ∧
      (∀ s st, sm.sessions.find? s = some st ↔
        s ≠ 0 ∧ ∃ p d, Latest cmds s p d ∧ st = { lastSeq := d.seq, lastResult := resultAfter b p d }) ∧
      (∀ s, s ≠ 0 → (∃ c ∈ cmds, c.sessionId = s) → ∃ p d, Latest cmds s p d) ∧
      ∀ c : Command,
        (c.Fresh cmds → (sm.apply c).1 = resultAfter b cmds c) ∧
        ∀ p d, c.sessionId ≠ 0 → Latest cmds c.sessionId p d →
          (c.seq = d.seq → sm.apply c = (resultAfter b p d, sm)) ∧ (c.seq < d.seq → sm.apply c = (.stale, sm)) := by
  obtain ⟨sm, hsm, h⟩ := (Tracks.init b).performAll P acts
  refine ⟨sm, hsm, h.backend_eq, h.session, fun s _ ⟨c, hc, hs⟩ => exists_latest hc hs, fun c => ⟨fun hf => ?_, ?_⟩⟩
  · exact (h.apply_fresh hf).1
  · intro p d h0 hl
    refine ⟨fun heq => ?_, fun hlt => ?_⟩
    · have := (h.apply_latest h0 hl (le_of_eq heq)).1
      rwa [if_pos heq] at this
    · have := (h.apply_latest h0 hl (le_of_lt hlt)).1
      rwa [if_neg (Nat.ne_of_lt hlt)] at this

/-- A repeated CAS after a move through a snapshot: answered from the table, not executed again. -/
theorem exactly_once_repeated :
    ∃ sm, Act.performAll SnapshotPayload.format.serde (StateMachine.new (⟨∅⟩ : MemBackend))
        [.apply ⟨1, 1, .cas [97] none (some [1])⟩, .transfer (StateMachine.new ⟨∅⟩)] = some sm ∧
      sm.apply ⟨1, 1, .cas [97] none (some [1])⟩ = (.cas true none, sm) := by
  obtain ⟨sm, hsm, _, _, _, hnext⟩ := exactly_once SnapshotPayload.format.serde (⟨∅⟩ : MemBackend)
    [.apply ⟨1, 1, .cas [97] none (some [1])⟩, .transfer (StateMachine.new ⟨∅⟩)]
  refine ⟨sm, hsm, ?_⟩
  exact ((hnext ⟨1, 1, .cas [97] none (some [1])⟩).2 [] ⟨1, 1, .cas [97] none (some [1])⟩ (by decide)
    ⟨rfl, ⟨[], rfl, by simp⟩, by simp⟩).1 rfl

end RaftKv
