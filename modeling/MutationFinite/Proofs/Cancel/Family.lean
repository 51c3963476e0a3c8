import MutationFinite.Proofs.Cancel.History

/-!
# Which tokens a stop reaches

A stop goes down the forest of tokens and nowhere else: the flags of a family record which tokens
are clones of one another and which are children, and the search for a raised flag goes up.

* `TokenFamily.afterCalls`: the family after calls, one after another.
* `isRaised_iff`: the search for a raised flag, as a chain of flags.
* `Records`: what the flags record of the calls; `Records.call` says that every call keeps it.
* `Records.heeds_iff`: a token heeds those whose flags are above its own.
* `isStopped_iff_requested`: a token is stopped when one that it heeds was.
-/

namespace MutationFinite

namespace TokenFamily

/-- The family after a call. -/
def call (f : TokenFamily) : TokenCall → TokenFamily
  | .new => f.new
  | .child t => f.child t
  | .clone t => f.clone t
  | .stop t => f.requestStop t

/-- The family after calls, one after another, on no tokens. -/
def afterCalls (calls : List TokenCall) : TokenFamily := calls.foldl call empty

/-- The flag above flag `i`. -/
def parent? (f : TokenFamily) (i : Nat) : Option Nat := f.flags[i]?.bind StopFlag.parent

/-- Flag `i` itself was raised. -/
def hasRaised (f : TokenFamily) (i : Nat) : Bool := f.flags[i]?.any StopFlag.raised

/-- One flag is above another, or the same. -/
def Above (f : TokenFamily) : Nat → Nat → Prop :=
  Relation.ReflTransGen fun i j => f.parent? i = some j

variable {calls more : List TokenCall} {c d : TokenCall} {t u v : Nat} {f : TokenFamily}
  {i j depth : Nat} {parent : Option Nat}

/-! ### Chains of flags -/

theorem isRaised_succ (f : TokenFamily) (depth i : Nat) :
    f.isRaised (depth + 1) i = true ↔
      f.hasRaised i = true ∨ ∃ j, f.parent? i = some j ∧ f.isRaised depth j = true := by
  rw [isRaised, hasRaised, parent?]
  cases f.flags[i]? with
  | none => simp
  | some flag => cases hp : flag.parent <;> simp [hp]

/-- **The search for a raised flag** goes along the chain of flags above the first one, and is deep
enough when every flag is above a newer one. -/
theorem isRaised_iff (hnewer : ∀ i j, f.parent? i = some j → j < i) (hdepth : i < depth) :
    f.isRaised depth i = true ↔ ∃ j, f.Above i j ∧ f.hasRaised j = true := by
  induction depth generalizing i with
  | zero => exact absurd hdepth (Nat.not_lt_zero i)
  | succ depth ih =>
      rw [isRaised_succ]
      constructor
      · rintro (h | ⟨j, hj, h⟩)
        · exact ⟨i, .refl, h⟩
        · obtain ⟨k, hk, h⟩ := (ih (by have := hnewer i j hj; omega)).mp h
          exact ⟨k, .head hj hk, h⟩
      · rintro ⟨k, hk, h⟩
        rcases Relation.ReflTransGen.cases_head hk with rfl | ⟨j, hj, hk⟩
        · exact .inl h
        · exact .inr ⟨j, hj, (ih (by have := hnewer i j hj; omega)).mpr ⟨k, hk, h⟩⟩

theorem Above.le (hnewer : ∀ i j, f.parent? i = some j → j < i) (h : f.Above i j) : j ≤ i := by
  induction h with
  | refl => exact Nat.le_refl i
  | tail _ hk ih => exact Nat.le_trans (Nat.le_of_lt (hnewer _ _ hk)) ih

/-! ### What one call does to the flags -/

theorem size_tokens_addFlag : (f.addFlag parent).tokens.size = f.tokens.size + 1 :=
  Array.size_push _

theorem size_flags_addFlag : (f.addFlag parent).flags.size = f.flags.size + 1 := Array.size_push _

theorem flagOf_addFlag (ht : t < f.tokens.size) : (f.addFlag parent).flagOf t = f.flagOf t := by
  simp [flagOf, addFlag, Array.getD_eq_getD_getElem?, Array.getElem?_push, Nat.ne_of_lt ht]

theorem flagOf_addFlag_size : (f.addFlag parent).flagOf f.tokens.size = f.flags.size := by
  simp [flagOf, addFlag, Array.getD_eq_getD_getElem?]

theorem parent?_addFlag :
    (f.addFlag parent).parent? i = if i = f.flags.size then parent else f.parent? i := by
  simp only [parent?, addFlag, Array.getElem?_push]
  split <;> rfl

theorem hasRaised_addFlag : (f.addFlag parent).hasRaised i = f.hasRaised i := by
  simp only [hasRaised, addFlag, Array.getElem?_push]
  split
  · next h => simp [h]
  · rfl

theorem size_tokens_clone : (f.clone u).tokens.size = f.tokens.size + 1 := Array.size_push _

theorem flagOf_clone (ht : t < f.tokens.size) : (f.clone u).flagOf t = f.flagOf t := by
  simp [flagOf, clone, Array.getD_eq_getD_getElem?, Array.getElem?_push, Nat.ne_of_lt ht]

theorem flagOf_clone_size : (f.clone u).flagOf f.tokens.size = f.flagOf u := by
  simp [flagOf, clone, Array.getD_eq_getD_getElem?]

theorem parent?_requestStop : (f.requestStop u).parent? i = f.parent? i := by
  simp only [parent?, requestStop, Array.getElem?_modify]
  split
  · next h => cases f.flags[i]? <;> rfl
  · rfl

theorem hasRaised_requestStop (hu : f.flagOf u < f.flags.size) :
    (f.requestStop u).hasRaised i = true ↔ f.hasRaised i = true ∨ f.flagOf u = i := by
  simp only [hasRaised, requestStop, Array.getElem?_modify]
  split
  · next h =>
    subst h
    simp [hu]
  · next h => simp [h]

/-! ### What the flags record -/

/-- What the flags of a family record of the calls made on it. -/
structure Records (calls : List TokenCall) (f : TokenFamily) : Prop where
  size : f.tokens.size = (origins calls).length
  flag : ∀ t < f.tokens.size, f.flagOf t < f.flags.size
  /-- A clone has the flag of its original. -/
  clone : ∀ {t u}, MadeBy calls t (.clone u) → f.flagOf t = f.flagOf u
  /-- The flag of a child is below that of its parent. -/
  child : ∀ {t u}, MadeBy calls t (.child u) → f.parent? (f.flagOf t) = some (f.flagOf u)
  /-- It is newer than the flags of all tokens made before. -/
  fresh : ∀ {t u}, MadeBy calls t (.child u) → ∀ v < t, f.flagOf v < f.flagOf t
  /-- Tokens with one flag heed one another. -/
  shared : ∀ {t u}, t < f.tokens.size → u < f.tokens.size → f.flagOf t = f.flagOf u →
    Heeds calls t u
  /-- A flag is below another one for a child and its parent only. -/
  parent : ∀ {i j}, f.parent? i = some j →
    j < i ∧ ∃ t u, MadeBy calls t (.child u) ∧ f.flagOf t = i ∧ f.flagOf u = j
  raised : ∀ {i}, f.hasRaised i = true ↔ ∃ u, .stop u ∈ calls ∧ f.flagOf u = i

namespace Records

theorem empty : Records [] TokenFamily.empty where
  size := rfl
  flag _ h := absurd h (Nat.not_lt_zero _)
  clone h := by cases h
  child h := by cases h
  fresh h := by cases h
  shared h := absurd h (Nat.not_lt_zero _)
  parent h := by cases h
  raised := by simp [hasRaised, TokenFamily.empty]

theorem lt_size (h : Records calls f) (hmade : MadeBy calls t d) : t < f.tokens.size :=
  h.size ▸ hmade.lt

theorem on_lt_size (h : Records calls f) (hcalls : IsHistory calls) (hmade : MadeBy calls t d)
    (hu : u ∈ d.on?) : u < f.tokens.size :=
  Nat.lt_trans (hcalls.on_lt hmade u hu) (h.lt_size hmade)

/-- A call that makes a token raises no flag. -/
theorem raised_make (h : Records calls f) (hcalls : IsHistory calls) (hc : c.makes = true)
    {f' : TokenFamily} (hflag : ∀ t < f.tokens.size, f'.flagOf t = f.flagOf t) :
    f.hasRaised i = true ↔ ∃ u, .stop u ∈ calls ++ [c] ∧ f'.flagOf u = i := by
  have hstop : ∀ u, .stop u ∈ calls ++ [c] ↔ .stop u ∈ calls := by
    intro u
    rw [List.mem_append, List.mem_singleton, or_iff_left]
    rintro rfl
    cases hc
  rw [h.raised]
  refine exists_congr fun u => ?_
  rw [hstop]
  refine and_congr_right fun hu => ?_
  rw [hflag u (h.size ▸ hcalls.lt_of_stop hu)]

/-- A new token and a child have a flag of their own. -/
theorem addFlag (h : Records calls f) (hcalls : IsHistory calls) (hc : c.makes = true)
    (hclone : ∀ u, c ≠ .clone u) (hon : ∀ t ∈ c.on?, t < f.tokens.size) :
    Records (calls ++ [c]) (f.addFlag (c.on?.map f.flagOf)) where
  size := by rw [size_tokens_addFlag, h.size, origins_make hc, List.length_append]; rfl
  flag t ht := by
    rw [size_flags_addFlag]
    rw [size_tokens_addFlag] at ht
    rcases Nat.lt_succ_iff_lt_or_eq.mp ht with ht | rfl
    · rw [flagOf_addFlag ht]
      exact Nat.lt_succ_of_lt (h.flag t ht)
    · rw [flagOf_addFlag_size]
      exact Nat.lt_succ_self _
  clone {t u} hmade := by
    rcases (madeBy_make hc).mp hmade with hmade | ⟨-, rfl⟩
    · rw [flagOf_addFlag (h.lt_size hmade), flagOf_addFlag (h.on_lt_size hcalls hmade rfl),
        h.clone hmade]
    · exact absurd rfl (hclone u)
  child {t u} hmade := by
    rcases (madeBy_make hc).mp hmade with hmade | ⟨rfl, rfl⟩
    · have ht := h.lt_size hmade
      rw [flagOf_addFlag ht, flagOf_addFlag (h.on_lt_size hcalls hmade rfl), parent?_addFlag,
        if_neg (Nat.ne_of_lt (h.flag t ht)), h.child hmade]
    · rw [← h.size, flagOf_addFlag_size, flagOf_addFlag (hon u rfl), parent?_addFlag, if_pos rfl]
      rfl
  fresh {t u} hmade v hv := by
    rcases (madeBy_make hc).mp hmade with hmade | ⟨rfl, rfl⟩
    · rw [flagOf_addFlag (h.lt_size hmade), flagOf_addFlag (Nat.lt_trans hv (h.lt_size hmade))]
      exact h.fresh hmade v hv
    · rw [← h.size] at hv ⊢
      rw [flagOf_addFlag_size, flagOf_addFlag hv]
      exact h.flag v hv
  shared {t u} ht hu heq := by
    rw [size_tokens_addFlag] at ht hu
    -- the flag of the new token is that of no other
    rcases Nat.lt_succ_iff_lt_or_eq.mp ht with ht | rfl <;>
      rcases Nat.lt_succ_iff_lt_or_eq.mp hu with hu | rfl
    · rw [flagOf_addFlag ht, flagOf_addFlag hu] at heq
      exact (h.shared ht hu heq).append [c]
    · rw [flagOf_addFlag ht, flagOf_addFlag_size] at heq
      exact absurd heq (Nat.ne_of_lt (h.flag t ht))
    · rw [flagOf_addFlag hu, flagOf_addFlag_size] at heq
      exact absurd heq.symm (Nat.ne_of_lt (h.flag u hu))
    · exact .self _
  parent {i j} hparent := by
    rw [parent?_addFlag] at hparent
    split at hparent
    · next hi =>
      obtain ⟨p, hp, rfl⟩ := Option.map_eq_some_iff.mp hparent
      obtain rfl : c = .child p := by
        cases c with
        | child => exact congrArg TokenCall.child (Option.some.inj hp)
        | clone => exact absurd rfl (hclone _)
        | new => cases hp
        | stop => cases hc
      refine ⟨hi ▸ h.flag p (hon p rfl), f.tokens.size, p,
        (madeBy_make hc).mpr (.inr ⟨h.size, rfl⟩), ?_, flagOf_addFlag (hon p rfl)⟩
      rw [flagOf_addFlag_size, hi]
    · obtain ⟨hlt, t, u, hmade, rfl, rfl⟩ := h.parent hparent
      exact ⟨hlt, t, u, hmade.append [c], flagOf_addFlag (h.lt_size hmade),
        flagOf_addFlag (h.on_lt_size hcalls hmade rfl)⟩
  raised {i} := by
    rw [hasRaised_addFlag]
    exact h.raised_make hcalls hc fun t => flagOf_addFlag

/-- A clone has the flag of its original. -/
theorem addClone (h : Records calls f) (hcalls : IsHistory calls) (hu : u < f.tokens.size) :
    Records (calls ++ [.clone u]) (f.clone u) where
  size := by rw [size_tokens_clone, h.size, origins_make rfl, List.length_append]; rfl
  flag t ht := by
    rw [size_tokens_clone] at ht
    rcases Nat.lt_succ_iff_lt_or_eq.mp ht with ht | rfl
    · rw [flagOf_clone ht]
      exact h.flag t ht
    · rw [flagOf_clone_size]
      exact h.flag u hu
  clone {t v} hmade := by
    rcases (madeBy_make rfl).mp hmade with hmade | ⟨rfl, hcall⟩
    · rw [flagOf_clone (h.lt_size hmade), flagOf_clone (h.on_lt_size hcalls hmade rfl),
        h.clone hmade]
    · obtain rfl : u = v := TokenCall.clone.inj hcall
      rw [← h.size, flagOf_clone_size, flagOf_clone hu]
  child {t v} hmade := by
    rcases (madeBy_make rfl).mp hmade with hmade | ⟨-, hcall⟩
    · rw [flagOf_clone (h.lt_size hmade), flagOf_clone (h.on_lt_size hcalls hmade rfl)]
      exact h.child hmade
    · cases hcall
  fresh {t v} hmade w hw := by
    rcases (madeBy_make rfl).mp hmade with hmade | ⟨-, hcall⟩
    · rw [flagOf_clone (h.lt_size hmade), flagOf_clone (Nat.lt_trans hw (h.lt_size hmade))]
      exact h.fresh hmade w hw
    · cases hcall
  shared {t v} ht hv heq := by
    have hnew : MadeBy (calls ++ [.clone u]) f.tokens.size (.clone u) :=
      (madeBy_make rfl).mpr (.inr ⟨h.size, rfl⟩)
    rw [size_tokens_clone] at ht hv
    rcases Nat.lt_succ_iff_lt_or_eq.mp ht with ht | rfl <;>
      rcases Nat.lt_succ_iff_lt_or_eq.mp hv with hv | rfl
    · rw [flagOf_clone ht, flagOf_clone hv] at heq
      exact (h.shared ht hv heq).append _
    · rw [flagOf_clone ht, flagOf_clone_size] at heq
      exact ((h.shared ht hu heq).append _).trans (.original hnew (.self _))
    · rw [flagOf_clone hv, flagOf_clone_size] at heq
      exact .clone hnew ((h.shared hu hv heq).append _)
    · exact .self _
  parent {i j} hparent := by
    obtain ⟨hlt, t, v, hmade, rfl, rfl⟩ := h.parent hparent
    exact ⟨hlt, t, v, hmade.append _, flagOf_clone (h.lt_size hmade),
      flagOf_clone (h.on_lt_size hcalls hmade rfl)⟩
  raised := h.raised_make hcalls rfl fun _ => flagOf_clone

/-- A stop raises the flag of its token. -/
theorem stop (h : Records calls f) (hu : u < f.tokens.size) :
    Records (calls ++ [.stop u]) (f.requestStop u) where
  size := h.size.trans (congrArg List.length origins_stop.symm)
  flag t ht := by
    rw [requestStop, Array.size_modify]
    exact h.flag t ht
  clone hmade := h.clone (madeBy_stop.mp hmade)
  child hmade := parent?_requestStop.trans (h.child (madeBy_stop.mp hmade))
  fresh hmade := h.fresh (madeBy_stop.mp hmade)
  shared ht hv heq := (h.shared ht hv heq).append _
  parent hparent := by
    rw [parent?_requestStop] at hparent
    obtain ⟨hlt, t, v, hmade, ht, hv⟩ := h.parent hparent
    exact ⟨hlt, t, v, hmade.append _, ht, hv⟩
  raised {i} := by
    rw [hasRaised_requestStop (h.flag u hu), h.raised]
    constructor
    · rintro (⟨v, hv, hi⟩ | hi)
      · exact ⟨v, List.mem_append_left _ hv, hi⟩
      · exact ⟨u, List.mem_append_right _ (List.mem_singleton_self _), hi⟩
    · rintro ⟨v, hv, hi⟩
      rcases List.mem_append.mp hv with hv | hv
      · exact .inl ⟨v, hv, hi⟩
      · obtain rfl : v = u := TokenCall.stop.inj (List.mem_singleton.mp hv)
        exact .inr hi

/-- **Every call keeps the records.** -/
theorem call (h : Records calls f) (hcalls : IsHistory calls)
    (hon : ∀ t ∈ c.on?, t < (origins calls).length) : Records (calls ++ [c]) (f.call c) := by
  rw [← h.size] at hon
  cases c with
  | new | child => exact h.addFlag hcalls rfl (fun _ => TokenCall.noConfusion) hon
  | clone u => exact h.addClone hcalls (hon u rfl)
  | stop u => exact h.stop (hon u rfl)

end Records

theorem afterCalls_append (calls : List TokenCall) (c : TokenCall) :
    afterCalls (calls ++ [c]) = (afterCalls calls).call c := by
  rw [afterCalls, List.foldl_append]
  rfl

theorem records_afterCalls (h : IsHistory calls) : Records calls (afterCalls calls) := by
  induction h with
  | start => exact .empty
  | call hcalls hon ih =>
      rw [afterCalls_append]
      exact ih.call hcalls hon

/-! ### Stops go down the forest -/

namespace Records

theorem newer (h : Records calls f) (i j : Nat) (hparent : f.parent? i = some j) : j < i :=
  (h.parent hparent).1

/-- **A token heeds those whose flags are above its own.** -/
theorem heeds_iff (h : Records calls f) (hcalls : IsHistory calls) (ht : t < f.tokens.size)
    (hu : u < f.tokens.size) : Heeds calls t u ↔ f.Above (f.flagOf t) (f.flagOf u) := by
  constructor
  · intro hheeds
    clear ht hu
    induction hheeds with
    | self => exact .refl
    | child hmade _ ih => exact .head (h.child hmade) ih
    | clone hmade _ ih => exact h.clone hmade ▸ ih
    | original hmade _ ih => exact h.clone hmade ▸ ih
  · intro habove
    generalize hi : f.flagOf t = i at habove
    induction habove using Relation.ReflTransGen.head_induction_on generalizing t with
    | refl => exact h.shared ht hu hi
    | head hparent _ ih =>
        obtain ⟨-, t', p, hmade, ht', hp⟩ := h.parent hparent
        have hshared : Heeds calls t t' := h.shared ht (h.lt_size hmade) (hi.trans ht'.symm)
        exact hshared.trans (.child hmade (ih (h.on_lt_size hcalls hmade rfl) hp))

theorem isStopped_iff (h : Records calls f) (hcalls : IsHistory calls) (ht : t < f.tokens.size) :
    f.isStopped t = true ↔ ∃ u, .stop u ∈ calls ∧ Heeds calls t u := by
  rw [isStopped, isRaised_iff h.newer (h.flag t ht)]
  constructor
  · rintro ⟨j, habove, hraised⟩
    obtain ⟨u, hu, rfl⟩ := h.raised.mp hraised
    exact ⟨u, hu, (h.heeds_iff hcalls ht (h.size ▸ hcalls.lt_of_stop hu)).mpr habove⟩
  · rintro ⟨u, hu, hheeds⟩
    exact ⟨_, (h.heeds_iff hcalls ht (h.size ▸ hcalls.lt_of_stop hu)).mp hheeds,
      h.raised.mpr ⟨u, hu, rfl⟩⟩

/-- No token heeds one with a newer flag. -/
theorem flagOf_le (h : Records calls f) (hcalls : IsHistory calls) (ht : t < f.tokens.size)
    (hu : u < f.tokens.size) (hheeds : Heeds calls t u) : f.flagOf u ≤ f.flagOf t :=
  ((h.heeds_iff hcalls ht hu).mp hheeds).le h.newer

/-- The flag of a child is newer than that of its parent. -/
theorem flagOf_lt (h : Records calls f) (hmade : MadeBy calls t (.child u)) :
    f.flagOf u < f.flagOf t :=
  h.newer _ _ (h.child hmade)

theorem not_heeds_child (h : Records calls f) (hcalls : IsHistory calls)
    (hmade : MadeBy calls t (.child u)) : ¬ Heeds calls u t := fun hheeds =>
  absurd (h.flagOf_le hcalls (h.on_lt_size hcalls hmade rfl) (h.lt_size hmade) hheeds)
    (Nat.not_le_of_lt (h.flagOf_lt hmade))

/-- Children have different flags. -/
theorem flagOf_ne {t' u' : Nat} (h : Records calls f) (hmade : MadeBy calls t (.child u))
    (hmade' : MadeBy calls t' (.child u')) (hne : t ≠ t') : f.flagOf t ≠ f.flagOf t' := by
  rcases Nat.lt_or_gt_of_ne hne with hlt | hlt
  · exact Nat.ne_of_lt (h.fresh hmade' t hlt)
  · exact Nat.ne_of_gt (h.fresh hmade t' hlt)

/-- The way up from a child goes through its parent, and the children of what heeds the parent are
newer than that. -/
theorem not_heeds_sibling {t' u' : Nat} (h : Records calls f) (hcalls : IsHistory calls)
    (hmade : MadeBy calls t (.child u)) (hmade' : MadeBy calls t' (.child u')) (hne : t ≠ t')
    (hparent : Heeds calls u' u) : ¬ Heeds calls t t' := by
  intro hheeds
  have habove := (h.heeds_iff hcalls (h.lt_size hmade) (h.lt_size hmade')).mp hheeds
  rcases Relation.ReflTransGen.cases_head habove with heq | ⟨j, hj, habove⟩
  · exact h.flagOf_ne hmade hmade' hne heq
  · obtain rfl : f.flagOf u = j := Option.some.inj ((h.child hmade).symm.trans hj)
    have hle := h.flagOf_le hcalls (h.on_lt_size hcalls hmade' rfl) (h.on_lt_size hcalls hmade rfl)
      hparent
    have hlt := h.flagOf_lt hmade'
    have := Above.le h.newer habove
    omega

end Records

theorem isStopped_afterCalls (h : IsHistory calls) (ht : t < (origins calls).length) :
    (afterCalls calls).isStopped t = true ↔ ∃ u, .stop u ∈ calls ∧ Heeds calls t u := by
  have hrecords := records_afterCalls h
  exact hrecords.isStopped_iff h (hrecords.size ▸ ht)

/-- A stop reaches the tokens that heed its token, and no other. -/
theorem isStopped_stop (h : IsHistory calls) (ht : t < (origins calls).length)
    (hu : u < (origins calls).length) :
    (afterCalls (calls ++ [.stop u])).isStopped t = true ↔
      (afterCalls calls).isStopped t = true ∨ Heeds calls t u := by
  have hstop : IsHistory (calls ++ [.stop u]) := .call h fun _ hon => Option.some.inj hon ▸ hu
  rw [isStopped_afterCalls hstop (by rwa [origins_stop]), isStopped_afterCalls h ht]
  constructor
  · rintro ⟨v, hv, hheeds⟩
    rcases List.mem_append.mp hv with hv | hv
    · exact .inl ⟨v, hv, hheeds.of_stop⟩
    · obtain rfl : v = u := TokenCall.stop.inj (List.mem_singleton.mp hv)
      exact .inr hheeds.of_stop
  · rintro (⟨v, hv, hheeds⟩ | hheeds)
    · exact ⟨v, List.mem_append_left _ hv, hheeds.append _⟩
    · exact ⟨u, List.mem_append_right _ (List.mem_singleton_self _), hheeds.append _⟩

/-- No call undoes a stop. -/
theorem isStopped_append (h : IsHistory calls) (hmore : IsHistory (calls ++ more))
    (ht : t < (origins calls).length) (hstopped : (afterCalls calls).isStopped t = true) :
    (afterCalls (calls ++ more)).isStopped t = true := by
  obtain ⟨u, hu, hheeds⟩ := (isStopped_afterCalls h ht).mp hstopped
  have ht' : t < (origins (calls ++ more)).length :=
    Nat.lt_of_lt_of_le ht (length_origins_le calls more)
  exact (isStopped_afterCalls hmore ht').mpr
    ⟨u, List.mem_append_left _ hu, hheeds.append more⟩

/-- **A token is stopped when one that it heeds was.**  After any calls the tokens stopped are those
that heed a token on which a stop was requested, whichever of the two was made first.  A request
stops the tokens that heed its own and changes nothing for the others, and it is never undone.  A
parent heeds none of its children, and a child heeds no other child of its parent, nor the children
of the tokens that heed its parent. -/
theorem isStopped_iff_requested (h : IsHistory calls) :
    (∀ t < (origins calls).length,
      (afterCalls calls).isStopped t = true ↔ ∃ u, .stop u ∈ calls ∧ Heeds calls t u) ∧
    (∀ t < (origins calls).length, ∀ u < (origins calls).length,
      ((afterCalls (calls ++ [.stop u])).isStopped t = true ↔
        (afterCalls calls).isStopped t = true ∨ Heeds calls t u)) ∧
    (∀ more, IsHistory (calls ++ more) → ∀ t < (origins calls).length,
      (afterCalls calls).isStopped t = true → (afterCalls (calls ++ more)).isStopped t = true) ∧
    (∀ t p, MadeBy calls t (.child p) → ¬ Heeds calls p t) ∧
    ∀ t p t' p', MadeBy calls t (.child p) → MadeBy calls t' (.child p') → t ≠ t' →
      Heeds calls p' p → ¬ Heeds calls t t' := by
  have hrecords := records_afterCalls h
  exact ⟨fun t ht => isStopped_afterCalls h ht, fun t ht u hu => isStopped_stop h ht hu,
    fun more hmore t ht => isStopped_append h hmore ht,
    fun t p hmade => hrecords.not_heeds_child h hmade,
    fun t p t' p' hmade hmade' hne => hrecords.not_heeds_sibling h hmade hmade' hne⟩

/-- Token 2 is a clone of token 0, and a stop of it reaches token 3, which is made later below token
1, a child of token 0; of the two children of token 0 neither heeds the other. -/
theorem isStopped_iff_requested_clone :
    let calls : List TokenCall := [.new, .child 0, .clone 0, .stop 2, .child 1, .child 0]
    IsHistory calls ∧ (afterCalls calls).isStopped 3 = true ∧ ¬ Heeds calls 1 4 := by
  intro calls
  have h : IsHistory calls := by
    show IsHistory ([] ++ [.new] ++ [.child 0] ++ [.clone 0] ++ [.stop 2] ++ [.child 1] ++
      [.child 0])
    exact .call (.call (.call (.call (.call (.call .start (by decide)) (by decide)) (by decide))
      (by decide)) (by decide)) (by decide)
  obtain ⟨hstopped, -, -, -, hsiblings⟩ := isStopped_iff_requested h
  refine ⟨h, (hstopped 3 (by decide)).mpr ⟨2, by decide, ?_⟩,
    hsiblings 1 0 4 0 rfl rfl (by decide) (.self 0)⟩
  exact .child (u := 1) rfl (.child (u := 0) rfl (.original (u := 2) rfl (.self 2)))

end TokenFamily

end MutationFinite
