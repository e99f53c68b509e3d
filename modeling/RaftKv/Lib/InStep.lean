import Mathlib.Data.List.Forall2

/-!
# Lists in step

Two lists of which the items correspond one by one, as the inputs and the results of a loop do
(`List.Forall₂`): what is known of each pair, and of the lists as a whole.
-/

variable {ε α β γ : Type} {R : α → β → Prop} {as : List α} {bs : List β}

theorem forall₂_between {S : α → γ → Prop} {T : γ → β → Prop} (h : List.Forall₂ R as bs)
    (hex : ∀ a b, a ∈ as → b ∈ bs → R a b → ∃ c, S a c ∧ T c b) :
    ∃ cs, List.Forall₂ S as cs ∧ List.Forall₂ T cs bs := by
  induction h with
  | nil => exact ⟨[], .nil, .nil⟩
  | @cons a b as bs hab _ ih =>
    obtain ⟨c, hac, hcb⟩ := hex a b (by simp) (by simp) hab
    obtain ⟨cs, hs, ht⟩ := ih fun a' b' ha' hb' =>
      hex a' b' (List.mem_cons_of_mem _ ha') (List.mem_cons_of_mem _ hb')
    exact ⟨c :: cs, .cons hac hs, .cons hcb ht⟩

theorem forall₂_imp_mem {S : α → β → Prop} (h : List.Forall₂ R as bs)
    (himp : ∀ a b, a ∈ as → b ∈ bs → R a b → S a b) : List.Forall₂ S as bs := by
  induction h with
  | nil => exact .nil
  | @cons a b as bs hab _ ih =>
    refine .cons (himp a b (by simp) (by simp) hab) (ih fun a' b' ha' hb' => ?_)
    exact himp a' b' (List.mem_cons_of_mem _ ha') (List.mem_cons_of_mem _ hb')

theorem forall₂_both {S : α → β → Prop} (h : List.Forall₂ R as bs) (h' : List.Forall₂ S as bs) :
    List.Forall₂ (fun a b => R a b ∧ S a b) as bs := by
  induction h with
  | nil => exact .nil
  | cons hab _ ih =>
    cases h' with
    | cons hab' h' => exact .cons ⟨hab, hab'⟩ (ih h')

theorem forall₂_mem_left (h : List.Forall₂ R as bs) {a : α} (ha : a ∈ as) : ∃ b ∈ bs, R a b := by
  induction h with
  | nil => cases ha
  | @cons a' b as bs hab _ ih =>
    rcases List.mem_cons.1 ha with rfl | ha
    · exact ⟨b, by simp, hab⟩
    · obtain ⟨b', hb', hr⟩ := ih ha
      exact ⟨b', List.mem_cons_of_mem _ hb', hr⟩

theorem forall₂_mem_right (h : List.Forall₂ R as bs) {b : β} (hb : b ∈ bs) : ∃ a ∈ as, R a b :=
  forall₂_mem_left (R := flip R) h.flip hb

theorem pairwise_of_forall₂ {S : α → α → Prop} {T : β → β → Prop} (h : List.Forall₂ R as bs) (hT : bs.Pairwise T)
    (himp : ∀ {a b a' b'}, R a b → R a' b' → T b b' → S a a') : as.Pairwise S := by
  induction h with
  | nil => exact .nil
  | @cons a b as bs hab hrest ih =>
    obtain ⟨hb, hT⟩ := List.pairwise_cons.1 hT
    refine List.pairwise_cons.2 ⟨fun a' ha' => ?_, ih hT⟩
    obtain ⟨b', hb', hab'⟩ := forall₂_mem_left hrest ha'
    exact himp hab hab' (hb b' hb')

variable {f : α → Except ε β}

theorem mapM_eq_ok (h : List.Forall₂ (fun a b => f a = .ok b) as bs) : as.mapM f = .ok bs := by
  induction h with
  | nil => rfl
  | cons hab _ ih =>
    rw [List.mapM_cons, hab, ih]
    rfl

/-- The results are determined by the inputs. -/
theorem forall₂_unique {bs' : List β} (h : List.Forall₂ (fun a b => f a = .ok b) as bs)
    (h' : List.Forall₂ (fun a b => f a = .ok b) as bs') : bs = bs' := by
  have heq := mapM_eq_ok h
  rw [mapM_eq_ok h'] at heq
  exact (Except.ok.inj heq).symm

theorem forall₂_of_mapM : ∀ {as : List α} {bs : List β}, as.mapM f = .ok bs →
    List.Forall₂ (fun a b => f a = .ok b) as bs := by
  intro as
  induction as with
  | nil =>
    intro bs h
    cases h
    exact .nil
  | cons a as ih =>
    intro bs h
    rw [List.mapM_cons] at h
    cases ha : f a with
    | error e => rw [ha] at h; cases h
    | ok b =>
      cases has : as.mapM f with
      | error e => rw [ha, has] at h; cases h
      | ok bs' =>
        rw [ha, has] at h
        cases h
        exact .cons ha (ih has)
