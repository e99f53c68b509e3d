import RaftKv.Storage.Tree

/-!
# The weight of the levels

A compaction moves the versions of its tables to the next level, or drops them, and no level gets
versions from anywhere else. With weights that decrease from level to level, every turn of
`maybe_compact` makes the database lighter (`Sinks.weigh_lt`), so that the loop ends.
-/

namespace RaftKv.Storage

/-! ## Sums with weights -/

/-- The first of `n` numbers counts `n` times, the next one `n - 1` times, and so on. -/
def weigh : Nat → (Nat → Nat) → Nat
  | 0, _ => 0
  | n + 1, f => (n + 1) * f 0 + weigh n fun i => f (i + 1)

/-- Something goes from `i` to `i + 1`, all of it or a part. -/
def Sinks (i : Nat) (f f' : Nat → Nat) : Prop :=
  ∃ k, 0 < k ∧ f' i + k = f i ∧ f' (i + 1) ≤ f (i + 1) + k ∧ ∀ j, j ≠ i → j ≠ i + 1 → f' j = f j

section
variable {n i k : Nat} {f f' : Nat → Nat}

/-- More at the top. -/
theorem weigh_le_add (h₀ : f' 0 ≤ f 0 + k) (h : ∀ i, f' (i + 1) = f (i + 1)) : weigh n f' ≤ weigh n f + n * k := by
  cases n with
  | zero => simp [weigh]
  | succ n =>
    have hrest : (fun i => f' (i + 1)) = fun i => f (i + 1) := funext h
    have hmul := Nat.mul_le_mul_left (n + 1) h₀
    rw [Nat.mul_add] at hmul
    rw [weigh, weigh, hrest]
    omega

theorem Sinks.weigh_lt (h : Sinks i f f') (hi : i < n) : weigh n f' < weigh n f := by
  induction i generalizing n f f' with
  | zero =>
    obtain ⟨k, hk, hself, hnext, hother⟩ := h
    obtain ⟨n, rfl⟩ := Nat.exists_eq_add_one_of_ne_zero (Nat.ne_of_gt hi)
    have hrest : weigh n (fun i => f' (i + 1)) ≤ weigh n (fun i => f (i + 1)) + n * k :=
      weigh_le_add hnext fun i => hother _ (by omega) (by omega)
    rw [weigh, weigh, ← hself, Nat.mul_add, Nat.succ_mul n k]
    omega
  | succ i ih =>
    obtain ⟨n, rfl⟩ := Nat.exists_eq_add_one_of_ne_zero (Nat.ne_zero_of_lt hi)
    obtain ⟨k, hk, hself, hnext, hother⟩ := h
    have hrest : Sinks i (fun j => f (j + 1)) fun j => f' (j + 1) :=
      ⟨k, hk, hself, hnext, fun j h₁ h₂ => hother _ (by omega) (by omega)⟩
    have hlt : weigh n (fun j => f' (j + 1)) < weigh n fun j => f (j + 1) := ih hrest (by omega)
    rw [weigh, weigh, hother 0 (by omega) (by omega)]
    omega

end

/-! ## The versions of a level -/

variable {C : Coding} {d d' : Disk} {ts us : List SsTable}

/-- How many versions the tables have. -/
def Disk.count (C : Coding) (d : Disk) (ts : List SsTable) : Nat := (ts.map fun t => (d.entries C t).length).sum

theorem Disk.count_append : d.count C (ts ++ us) = d.count C ts + d.count C us := by
  simp [Disk.count]

theorem Disk.count_perm (h : ts.Perm us) : d.count C ts = d.count C us := (h.map _).sum_eq

theorem Disk.count_filter (p : SsTable → Bool) :
    d.count C (ts.filter p) + d.count C (ts.filter fun t => !p t) = d.count C ts := by
  rw [← Disk.count_append]
  exact Disk.count_perm (List.filter_append_perm p ts)

theorem Disk.count_congr (h : ∀ t ∈ ts, d'.table t.id = d.table t.id) : d'.count C ts = d.count C ts := by
  unfold Disk.count
  exact congrArg List.sum (List.map_congr_left fun t ht => congrArg List.length (Disk.entries_congr (h t ht)))

theorem Disk.le_count {t : SsTable} (ht : t ∈ ts) : (d.entries C t).length ≤ d.count C ts := by
  obtain ⟨pre, post, rfl⟩ := List.append_of_mem ht
  simp only [Disk.count, List.map_append, List.map_cons, List.sum_append, List.sum_cons]
  omega

/-- The versions in the levels. -/
def Engine.size (C : Coding) (g : Engine) (i : Nat) : Nat := g.disk.count C (levelAt g.db.levels i)

/-- Levels from 65 on do not count: `maybe_compact` does not look at them, since their limit does not fit. -/
def Engine.load (C : Coding) (g : Engine) : Nat := weigh 65 (g.size C)

theorem Engine.load_congr {g g' : Engine} (hd : g'.disk.table = g.disk.table) (hl : g'.db.levels = g.db.levels) :
    g'.load C = g.load C := by
  unfold Engine.load
  refine congrArg (weigh 65) (funext fun i => ?_)
  unfold Engine.size
  rw [hl]
  exact Disk.count_congr fun t _ => by rw [hd]

/-- A level 0 that is empty is not compacted, and the limits of the levels grow. -/
def Options.Tame (opts : Options) : Prop := 0 < opts.l0Trigger ∧ 2 ≤ opts.levelMultiplier

/-- Such levels are within the range that counts. -/
theorem lt_of_levelLimit {db : Db} (h : db.opts.Tame) {i limit : Nat} (hl : db.levelLimit i = .ok limit) : i < 65 := by
  unfold Db.levelLimit at hl
  dsimp only at hl
  split at hl
  · cases hl
  · rename_i hfit
    have hpow : 2 ^ (i - 1) ≤ db.opts.levelMultiplier ^ (i - 1) := Nat.pow_le_pow_left h.2 _
    have hlt : 2 ^ (i - 1) < 2 ^ 64 := by
      rw [not_or, Nat.not_le] at hfit
      exact Nat.lt_of_le_of_lt hpow hfit.1
    have := (Nat.pow_lt_pow_iff_right (a := 2) (by omega)).1 hlt
    omega

/-- What `maybe_compact` chooses is a level that has a limit and is over it. -/
theorem overfull_eq_some {db : Db} {is : List Nat} {i : Nat} (h : db.overfull is = .ok (some i)) :
    ∃ limit, db.levelLimit i = .ok limit ∧ limit < db.levelBytes i := by
  induction is with
  | nil => cases h
  | cons j is ih =>
    obtain ⟨limit, hlimit, h⟩ := bind_eq_ok h
    split at h
    · rename_i hlt
      cases h
      exact ⟨limit, hlimit, hlt⟩
    · exact ih h

end RaftKv.Storage
