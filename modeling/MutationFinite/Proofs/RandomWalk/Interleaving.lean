import MutationFinite.Proofs.RandomWalk.PlainRun
import MutationFinite.Schedule
import MutationFinite.RandomWalk.Interleaving
import MutationFinite.RandomWalk.Xoshiro
import Mathlib.Algebra.BigOperators.Group.List.Basic

/-!
# Walks that race for a proof

A walk that gives up has seen the flag, and behind a raised flag there is a walk with a proof.  So
whatever the order of the steps, a race comes back with a proof exactly when one of its walks finds
one alone.

* `Walker.rest`: what is left of a walk finds, when nothing tells it to give up.
* `Chain.Fits`: a walk is on the way to what it finds alone, or has given up.
* `Race.Sound`: so are all walks of a race; each step keeps it, so that it holds after every
  schedule.
* `Race.exists_over`: every race can be brought to its end, and no race is longer than `Race.left`.
* `proveInfinite_anySchedule`: what a race answers.
-/

namespace MutationFinite

open ExchangeMatrix

/-- What a walk finds stays found when more steps are allowed. -/
theorem walkSteps_extend {σ : Type} {draw : Nat → σ → Nat × σ} {n steps : Nat} (extra : Nat)
    (remaining done : Nat) {current spare : ExchangeMatrix} {last : Option Nat} {s : σ}
    {token : Token} (ht : token.NeverStops)
    (h : (walkSteps draw n remaining done current spare last s token).1 = some steps) :
    (walkSteps draw n (remaining + extra) done current spare last s token).1 = some steps := by
  induction remaining generalizing done current spare last s token with
  | zero => cases h
  | succ remaining ih =>
      obtain ⟨token', hpoll, ht'⟩ := ht.poll_if ((done + 1) % walkPollEvery = 0)
      rw [Nat.succ_add]
      simp only [walkSteps, hpoll, Bool.false_eq_true, if_false] at h ⊢
      split
      · next hwrite =>
        rw [hwrite] at h
        exact h
      · next hwrite =>
        rw [hwrite] at h
        dsimp only at h
        split
        · next hcert =>
          rw [if_pos hcert] at h
          exact h
        · next hcert =>
          rw [if_neg hcert] at h
          exact ih _ ht' h

section Walks

variable [Generator]

/-! ### What is left of a walk -/

namespace Walker

variable {n remaining : Nat} {w : Walker}

/-- What the rest of a walk finds when nothing tells it to give up. -/
def rest (n : Nat) (w : Walker) : Option Nat :=
  (walkSteps Generator.draw n w.remaining w.done w.current w.spare w.last w.generator .running).1

/-- What the rest of a walk finds that is in a step. -/
def restFromStep (n : Nat) (w : Walker) : Option Nat :=
  match w.advance n with
  | .inl steps => some steps
  | .inr w => w.rest n

theorem rest_zero (h : w.remaining = 0) : w.rest n = none := by
  rw [rest, h]
  rfl

theorem rest_succ (h : w.remaining = remaining + 1) :
    w.rest n = restFromStep n { w with remaining } := by
  obtain ⟨token, hpoll, ht⟩ := Token.neverStops_running.poll_if ((w.done + 1) % walkPollEvery = 0)
  rcases hpick : pickVertex Generator.draw n w.last w.generator with ⟨k, generator⟩
  simp only [rest, restFromStep, advance, h, walkSteps, hpoll, hpick, Bool.false_eq_true, if_false]
  rcases w.current.overwriteMutated k w.spare with ⟨next, _ | _⟩
  · rfl
  · by_cases hcert : next.certifiesInfinite = true
    · simp only [hcert, if_true]
    · simp only [hcert]
      exact walkSteps_agree _ _ _ _ _ _ _ _ Token.neverStops_running ht

theorem remaining_advance {w' : Walker} (h : w.advance n = .inr w') :
    w'.remaining = w.remaining := by
  simp only [advance] at h
  split at h
  · cases h
  · split at h
    · cases h
    · cases h
      rfl

end Walker

/-- What walk `chain` finds alone. -/
def alone (base : UInt64) (seed : ExchangeMatrix) (maxSteps chain : Nat) : Option Nat :=
  (runChain base seed maxSteps chain .running).1

section Alone

variable {base : UInt64} {seed : ExchangeMatrix} {maxSteps maxSteps' chain steps : Nat}

theorem alone_of_lt (h : seed.rank < 2) : alone base seed maxSteps chain = none := by
  rw [alone, runChain, randomWalk, if_pos h]

theorem alone_of_not_lt (h : ¬ seed.rank < 2) : alone base seed maxSteps chain =
    (Walker.start seed maxSteps (chainGenerator base chain)).rest seed.rank := by
  rw [alone, runChain, randomWalk, if_neg h]
  rfl

theorem alone_mono (hle : maxSteps ≤ maxSteps') (h : alone base seed maxSteps chain = some steps) :
    alone base seed maxSteps' chain = some steps := by
  by_cases hrank : seed.rank < 2
  · rw [alone_of_lt hrank] at h
    cases h
  · rw [alone_of_not_lt hrank] at h ⊢
    obtain ⟨extra, rfl⟩ := Nat.exists_eq_add_of_le hle
    exact walkSteps_extend extra maxSteps 0 Token.neverStops_running h

end Alone

/-! ### One walk -/

namespace Chain

variable {seed : ExchangeMatrix} {maxSteps : Nat} {generator : Generator.State} {giveUp : Bool}
  {finds : Option Nat} {c c' : Chain}

/-- A walk goes on. -/
inductive Advances (seed : ExchangeMatrix) (maxSteps : Nat) (generator : Generator.State)
    (giveUp : Bool) : Chain → Chain → Prop where
  | refuse (hrank : seed.rank < 2) : Advances seed maxSteps generator giveUp waiting (returned none)
  | start (hrank : ¬ seed.rank < 2) :
      Advances seed maxSteps generator giveUp waiting (polling (.start seed maxSteps generator))
  | exhaust {w : Walker} (hzero : w.remaining = 0) :
      Advances seed maxSteps generator giveUp (polling w) (returned none)
  | giveUp (w : Walker) (hgiveUp : giveUp = true) :
      Advances seed maxSteps generator giveUp (polling w) (returned none)
  | step {w : Walker} {remaining : Nat} (hsucc : w.remaining = remaining + 1) :
      Advances seed maxSteps generator giveUp (polling w) (stepping { w with remaining })
  | prove {w : Walker} {steps : Nat} (hproved : w.advance seed.rank = .inl steps) :
      Advances seed maxSteps generator giveUp (stepping w) (proved steps)
  | proceed {w w' : Walker} (hgoes : w.advance seed.rank = .inr w') :
      Advances seed maxSteps generator giveUp (stepping w) (polling w')
  | announce (steps : Nat) :
      Advances seed maxSteps generator giveUp (proved steps) (announced steps)
  | comeBack (steps : Nat) :
      Advances seed maxSteps generator giveUp (announced steps) (returned (some steps))

/-- There is no other way for a walk to go on. -/
theorem advances_of_advance? (hc : c.advance? seed maxSteps generator giveUp = some c') :
    Advances seed maxSteps generator giveUp c c' := by
  cases c with
  | waiting =>
      cases hc
      split
      · next hrank => exact .refuse hrank
      · next hrank => exact .start hrank
  | polling w =>
      simp only [advance?] at hc
      split at hc
      · next hzero =>
        cases hc
        exact .exhaust hzero
      · next remaining hsucc =>
        split at hc
        · next hgiveUp =>
          cases hc
          exact .giveUp w hgiveUp.2
        · cases hc
          exact .step hsucc
  | stepping w =>
      simp only [advance?] at hc
      split at hc
      · next hproved =>
        cases hc
        exact .prove hproved
      · next hgoes =>
        cases hc
        exact .proceed hgoes
  | proved steps =>
      cases hc
      exact .announce steps
  | announced steps =>
      cases hc
      exact .comeBack steps
  | returned | skipped => cases hc

/-- A walk that is not over can go on. -/
theorem exists_advance? (seed : ExchangeMatrix) (maxSteps : Nat) (generator : Generator.State)
    (giveUp : Bool) (hover : c.isOver = false) :
    ∃ c', c.advance? seed maxSteps generator giveUp = some c' := by
  cases c with
  | waiting | proved | announced => exact ⟨_, rfl⟩
  | polling w =>
      simp only [advance?]
      split
      · exact ⟨_, rfl⟩
      · split <;> exact ⟨_, rfl⟩
  | stepping w =>
      simp only [advance?]
      split <;> exact ⟨_, rfl⟩
  | returned | skipped => cases hover

/-- A walk is on the way to what it `finds` alone, has come back with it, or has been told to give
up. -/
def Fits (n : Nat) (finds : Option Nat) (giveUp : Bool) : Chain → Prop
  | waiting | skipped => True
  | polling w => w.rest n = finds
  | stepping w => w.restFromStep n = finds
  | proved steps | announced steps | returned (some steps) => finds = some steps
  | returned none => finds = none ∨ giveUp = true

/-- The flag may come up meanwhile. -/
theorem Fits.mono {giveUp' : Bool} (hmono : giveUp = true → giveUp' = true) {n : Nat}
    (h : c.Fits n finds giveUp) : c.Fits n finds giveUp' := by
  rcases c with _ | _ | _ | _ | _ | (_ | _) | _
  case returned.none => exact h.imp_right hmono
  all_goals exact h

/-- **A walk that goes on is on the way to what it finds alone.** -/
theorem Fits.advances (hshort : seed.rank < 2 → finds = none)
    (hlong : ¬ seed.rank < 2 → finds = (Walker.start seed maxSteps generator).rest seed.rank)
    (h : c.Fits seed.rank finds giveUp) (hc : Advances seed maxSteps generator giveUp c c') :
    c'.Fits seed.rank finds giveUp := by
  cases hc with
  | refuse hrank => exact .inl (hshort hrank)
  | start hrank => exact (hlong hrank).symm
  | exhaust hzero => exact .inl (h.symm.trans (Walker.rest_zero hzero))
  | giveUp w hgiveUp => exact .inr hgiveUp
  | step hsucc => exact (Walker.rest_succ hsucc).symm.trans h
  | prove hproved =>
      simp only [Fits, Walker.restFromStep, hproved] at h
      exact h.symm
  | proceed hgoes =>
      simp only [Fits, Walker.restFromStep, hgoes] at h
      exact h
  | announce | comeBack => exact h

/-- The flag has been raised for the proof of the walk. -/
def hasAnnounced : Chain → Bool
  | announced _ | returned (some _) => true
  | _ => false

theorem isWinner_of_hasAnnounced (hover : c.isOver = true) (h : c.hasAnnounced = true) :
    c.isWinner = true := by
  rcases c with _ | _ | _ | _ | _ | (_ | _) | _
  case returned.some => rfl
  case announced => cases hover
  all_goals cases h

theorem Advances.hasAnnounced (hc : Advances seed maxSteps generator giveUp c c')
    (h : c.raises = true ∨ c.hasAnnounced = true) : c'.hasAnnounced = true := by
  cases hc with
  | announce | comeBack => rfl
  | refuse | start | exhaust | giveUp | step | prove | proceed => rcases h with h | h <;> cases h

theorem Advances.not_isWinner (hc : Advances seed maxSteps generator giveUp c c') :
    c.isWinner = false := by
  cases hc <;> rfl

/-- An upper bound for the steps that a walk has still to take. -/
def left (maxSteps : Nat) : Chain → Nat
  | waiting => 2 * maxSteps + 4
  | polling w => 2 * w.remaining + 3
  | stepping w => 2 * w.remaining + 4
  | proved _ => 2
  | announced _ => 1
  | returned _ | skipped => 0

theorem Advances.left_lt (hc : Advances seed maxSteps generator giveUp c c') :
    c'.left maxSteps < c.left maxSteps := by
  cases hc with
  | start => exact Nat.lt_succ_self _
  | step hsucc =>
      simp only [left, hsucc]
      omega
  | prove =>
      simp only [left]
      omega
  | proceed hgoes =>
      simp only [left, Walker.remaining_advance hgoes]
      omega
  | announce => exact Nat.lt_succ_self _
  | refuse | exhaust | giveUp | comeBack => exact Nat.succ_pos _

end Chain

/-! ### Races -/

namespace Race

variable {base : UInt64} {seed : ExchangeMatrix} {maxSteps count : Nat} {s s' : Race}
  {outcome : Heuristic}

/-- A step of a race. -/
inductive Goes (base : UInt64) (seed : ExchangeMatrix) (maxSteps : Nat) (s : Race) :
    Race → Prop where
  | stopCaller : Goes base seed maxSteps s { s with callerStopped := true }
  | advance {i : Nat} {c c' : Chain} (hat : s.walks[i]? = some c)
      (hc : Chain.Advances seed maxSteps (chainGenerator base i) s.giveUp c c') :
      Goes base seed maxSteps s
        { s with found := s.found || c.raises, walks := s.walks.set i c' }
  | skip {i : Nat} (hat : s.walks[i]? = some .waiting) (hwinner : s.hasWinner = true) :
      Goes base seed maxSteps s { s with walks := s.walks.set i .skipped }

/-- **There are no other steps.** -/
theorem goes_of_step {move : Move} (h : step base seed maxSteps s move = some s') :
    Goes base seed maxSteps s s' := by
  cases move with
  | stopCaller =>
      cases h
      exact .stopCaller
  | advance i =>
      obtain ⟨c, hat, h⟩ := Option.bind_eq_some_iff.mp h
      obtain ⟨c', hc, rfl⟩ := Option.map_eq_some_iff.mp h
      exact .advance hat (Chain.advances_of_advance? hc)
  | skip i =>
      simp only [step] at h
      split at h
      · next hat =>
        split at h
        · next hwinner =>
          cases h
          exact .skip hat hwinner
        · cases h
      · cases h

theorem step_advance {i : Nat} {c c' : Chain} (hat : s.walks[i]? = some c)
    (hc : c.advance? seed maxSteps (chainGenerator base i) s.giveUp = some c') :
    step base seed maxSteps s (.advance i) =
      some { s with found := s.found || c.raises, walks := s.walks.set i c' } := by
  simp only [step, hat, Option.bind_some, hc, Option.map_some]

/-- Some walk is as it should be, and stays so when one of them goes on. -/
theorem any_set {P : Chain → Bool} {walks : List Chain} {i : Nat} {c c' : Chain}
    (hat : walks[i]? = some c) (hc : P c = true → P c' = true) (hany : walks.any P = true) :
    (walks.set i c').any P = true := by
  obtain ⟨d, hd, hP⟩ := List.any_eq_true.mp hany
  obtain ⟨j, hj⟩ := List.mem_iff_getElem?.mp hd
  rw [List.any_eq_true]
  by_cases hij : i = j
  · subst hij
    obtain rfl := Option.some.inj (hat.symm.trans hj)
    exact ⟨c', List.mem_set (List.getElem?_eq_some_iff.mp hat).1 c', hc hP⟩
  · exact ⟨d, List.mem_iff_getElem?.mpr ⟨j, by rw [List.getElem?_set_ne hij, hj]⟩, hP⟩

/-- A walk that goes on is the only one that changes. -/
theorem forall_set {P : Nat → Chain → Prop} {walks : List Chain} {i : Nat} {c' : Chain}
    (hc : P i c') (h : ∀ j c, walks[j]? = some c → P j c) :
    ∀ j c, (walks.set i c')[j]? = some c → P j c := by
  intro j c hj
  by_cases hij : i = j
  · subst hij
    rw [List.getElem?_set_self'] at hj
    obtain ⟨_, -, rfl⟩ := Option.map_eq_some_iff.mp hj
    exact hc
  · rw [List.getElem?_set_ne hij] at hj
    exact h j c hj

/-- What holds after each step of a race. -/
structure Sound (base : UInt64) (seed : ExchangeMatrix) (maxSteps count : Nat) (s : Race) :
    Prop where
  length : s.walks.length = count
  fits : ∀ i (c : Chain), s.walks[i]? = some c →
    c.Fits seed.rank (alone base seed maxSteps i) s.giveUp
  raised : s.found = true → s.walks.any Chain.hasAnnounced = true
  skipped : .skipped ∈ s.walks → s.hasWinner = true

namespace Sound

theorem initial (base : UInt64) (seed : ExchangeMatrix) (maxSteps count : Nat) :
    Sound base seed maxSteps count (.initial count) where
  length := List.length_replicate
  fits i c hc := by
    rw [List.eq_of_mem_replicate (List.mem_of_getElem? hc)]
    trivial
  raised h := by cases h
  skipped h := by cases List.eq_of_mem_replicate h

theorem goes (h : Sound base seed maxSteps count s) (hg : Goes base seed maxSteps s s') :
    Sound base seed maxSteps count s' := by
  cases hg with
  | stopCaller =>
      refine ⟨h.length, fun i c hc => (h.fits i c hc).mono fun hgiveUp => ?_, h.raised, h.skipped⟩
      exact Bool.or_eq_true_iff.mpr (.inr rfl)
  | @advance i c c' hat hc =>
      have hmono : s.giveUp = true → (s.found || c.raises || s.callerStopped) = true := by
        simp only [giveUp, Bool.or_eq_true]
        tauto
      have hfits := (h.fits i c hat).advances alone_of_lt alone_of_not_lt hc
      refine ⟨by rw [List.length_set]; exact h.length, ?_, fun hraised => ?_, fun hskipped => ?_⟩
      · exact forall_set (hfits.mono hmono)
          fun j d hd => (h.fits j d hd).mono hmono
      · -- the flag was up, or this walk has raised it and has a proof
        rcases Bool.or_eq_true_iff.mp hraised with hfound | hraises
        · exact any_set hat (fun h => hc.hasAnnounced (.inr h)) (h.raised hfound)
        · rw [List.any_eq_true]
          exact ⟨c', List.mem_set (List.getElem?_eq_some_iff.mp hat).1 c',
            hc.hasAnnounced (.inl hraises)⟩
      · rcases List.mem_or_eq_of_mem_set hskipped with hbefore | rfl
        · refine any_set hat (fun hwinner => ?_) (h.skipped hbefore)
          cases hc.not_isWinner.symm.trans hwinner
        · cases hc
  | skip hat hwinner =>
      refine ⟨by rw [List.length_set]; exact h.length, forall_set trivial h.fits,
        fun hfound => any_set hat nofun (h.raised hfound), fun _ => any_set hat nofun hwinner⟩

end Sound

/-- What every schedule comes to. -/
theorem followSchedule_sound {schedule : List Move}
    (h : followSchedule (step base seed maxSteps) schedule (.initial count) = some s) :
    Sound base seed maxSteps count s :=
  followSchedule_induction (fun _ _ _ hmove hs => hs.goes (goes_of_step hmove))
    (.initial base seed maxSteps count) h

/-! ### The answer -/

/-- A race that is over has an answer. -/
theorem exists_answers (s : Race) : ∃ outcome, s.Answers outcome := by
  cases hwinner : s.hasWinner with
  | false => exact ⟨.unknown, hwinner⟩
  | true =>
      obtain ⟨c, hc, hwins⟩ := List.any_eq_true.mp hwinner
      obtain ⟨chain, hchain⟩ := List.mem_iff_getElem?.mp hc
      rcases c with _ | _ | _ | _ | _ | (_ | steps) | _
      case returned.some => exact ⟨.infinite steps chain, hchain⟩
      all_goals cases hwins

namespace Sound

/-- A proof that a race answers with is that of the walk alone. -/
theorem alone_of_infinite (h : Sound base seed maxSteps count s) {steps chain : Nat}
    (hanswer : s.Answers (.infinite steps chain)) :
    chain < count ∧ alone base seed maxSteps chain = some steps := by
  have hlt := (List.getElem?_eq_some_iff.mp hanswer).1
  exact ⟨h.length ▸ hlt, h.fits chain _ hanswer⟩

/-- A race that nobody stops has a proof when one of its walks finds one alone: a walk that has
given up has seen the flag, and behind the flag there is a walk that has come back with a proof. -/
theorem hasWinner (h : Sound base seed maxSteps count s) (hquiet : s.callerStopped = false)
    (hover : s.isOver = true) {chain : Nat} (hlt : chain < count)
    (hfinds : (alone base seed maxSteps chain).isSome = true) : s.hasWinner = true := by
  have hlength : chain < s.walks.length := by rw [h.length]; exact hlt
  have hall := List.all_eq_true.mp hover
  have hmem := List.getElem_mem hlength
  have hfits := h.fits chain _ (List.getElem?_eq_getElem hlength)
  have hended := hall _ hmem
  rcases hat : s.walks[chain] with _ | _ | _ | _ | _ | (_ | steps) | _ <;>
    rw [hat] at hmem hfits hended
  case returned.some => exact List.any_eq_true.mpr ⟨_, hmem, rfl⟩
  case skipped => exact h.skipped hmem
  case returned.none =>
    rcases hfits with hnone | hgiveUp
    · rw [hnone] at hfinds
      cases hfinds
    · rw [giveUp, hquiet, Bool.or_false] at hgiveUp
      obtain ⟨d, hd, hannounced⟩ := List.any_eq_true.mp (h.raised hgiveUp)
      exact List.any_eq_true.mpr ⟨d, hd, Chain.isWinner_of_hasAnnounced (hall d hd) hannounced⟩
  all_goals cases hended

/-- **The answer of a race** that is over, and that nobody has stopped. -/
theorem isInfinite_iff (h : Sound base seed maxSteps count s) (hquiet : s.callerStopped = false)
    (hover : s.isOver = true) (hanswer : s.Answers outcome) :
    outcome.isInfinite = true ↔
      ∃ chain < count, (alone base seed maxSteps chain).isSome = true := by
  cases outcome with
  | infinite steps chain =>
      obtain ⟨hlt, hfinds⟩ := h.alone_of_infinite hanswer
      exact iff_of_true rfl ⟨chain, hlt, by rw [hfinds]; rfl⟩
  | unknown =>
      refine iff_of_false nofun ?_
      rintro ⟨chain, hlt, hfinds⟩
      cases hanswer.symm.trans (h.hasWinner hquiet hover hlt hfinds)

end Sound

/-! ### The end -/

/-- An upper bound for the steps that the walks of a race have still to take. -/
def left (maxSteps : Nat) (s : Race) : Nat := (s.walks.map (Chain.left maxSteps)).sum

theorem sum_set_lt {f : Chain → Nat} {walks : List Chain} {i : Nat} {c c' : Chain}
    (hat : walks[i]? = some c) (hlt : f c' < f c) :
    ((walks.set i c').map f).sum < (walks.map f).sum := by
  induction walks generalizing i with
  | nil => cases hat
  | cons d rest ih =>
      cases i with
      | zero =>
          cases hat
          simpa using hlt
      | succ i => simpa using ih hat

/-- The caller's token stays stopped. -/
theorem Goes.callerStopped_mono (h : Goes base seed maxSteps s s')
    (hquiet : s'.callerStopped = false) : s.callerStopped = false := by
  cases h with
  | stopCaller => cases hquiet
  | advance | skip => exact hquiet

/-- A step that does not stop the token brings a race nearer to its end. -/
theorem Goes.left_lt (h : Goes base seed maxSteps s s') (hquiet : s'.callerStopped = false) :
    s'.left maxSteps < s.left maxSteps := by
  cases h with
  | stopCaller => cases hquiet
  | advance hat hc => exact sum_set_lt hat hc.left_lt
  | skip hat => exact sum_set_lt hat (Nat.succ_pos _)

/-- **No race is longer than the steps of its walks**, when nobody stops it. -/
theorem length_add_left_le {schedule : List Move}
    (h : followSchedule (step base seed maxSteps) schedule s = some s')
    (hquiet : s'.callerStopped = false) :
    s.callerStopped = false ∧ schedule.length + s'.left maxSteps ≤ s.left maxSteps := by
  induction schedule generalizing s with
  | nil =>
      cases h
      exact ⟨hquiet, Nat.le_of_eq (Nat.zero_add _)⟩
  | cons move rest ih =>
      obtain ⟨next, hmove, hrest⟩ := Option.bind_eq_some_iff.mp h
      have hgoes := goes_of_step hmove
      obtain ⟨hnext, hle⟩ := ih hrest
      have hlt := hgoes.left_lt hnext
      refine ⟨hgoes.callerStopped_mono hnext, ?_⟩
      rw [List.length_cons]
      omega

/-- **Every race can be brought to its end.** -/
theorem exists_over (base : UInt64) (seed : ExchangeMatrix) (maxSteps : Nat) (s : Race) :
    ∃ s', LeadsTo (step base seed maxSteps) s s' ∧ s'.callerStopped = s.callerStopped ∧
      s'.isOver = true := by
  refine exists_leadsTo_of_decreasing (left maxSteps)
    (fun s' (hstopped : s'.callerStopped = s.callerStopped) (hover : ¬ s'.isOver = true) => ?_)
    s rfl
  rw [isOver, List.all_eq_true] at hover
  push Not at hover
  obtain ⟨c, hmem, hc⟩ := hover
  obtain ⟨i, hat⟩ := List.mem_iff_getElem?.mp hmem
  obtain ⟨c', hnext⟩ := Chain.exists_advance? seed maxSteps (chainGenerator base i) s'.giveUp
    (Bool.eq_false_of_not_eq_true hc)
  refine ⟨_, .one (.advance i) (step_advance hat hnext), hstopped, ?_⟩
  exact sum_set_lt hat (Chain.advances_of_advance? hnext).left_lt

/-! ### One walk after another -/

section OneByOne

variable (base : UInt64) (seed : ExchangeMatrix) (maxSteps : Nat) {i : Nat} {c : Chain} {w : Walker}

/-- A walk goes on, and the flag stays as it is. -/
theorem leadsTo_advance (c' : Chain) (hat : s.walks[i]? = some c) (hraises : c.raises = false)
    (hc : c.advance? seed maxSteps (chainGenerator base i) s.giveUp = some c') :
    LeadsTo (step base seed maxSteps) s { s with walks := s.walks.set i c' } := by
  refine .one (.advance i) ?_
  rw [step_advance hat hc, hraises, Bool.or_false]

/-- A walk that has a proof raises the flag and comes back. -/
theorem leadsTo_proved {steps : Nat} (hat : s.walks[i]? = some (.proved steps)) :
    LeadsTo (step base seed maxSteps) s
      { s with found := true, walks := s.walks.set i (.returned (some steps)) } := by
  have hi := (List.getElem?_eq_some_iff.mp hat).1
  have hraised : step base seed maxSteps s (.advance i) =
      some { s with found := true, walks := s.walks.set i (.announced steps) } := by
    rw [step_advance hat rfl]
    simp [Chain.raises]
  have hback := leadsTo_advance base seed maxSteps
    (s := { s with found := true, walks := s.walks.set i (.announced steps) })
    (.returned (some steps)) (List.getElem?_set_self hi) rfl rfl
  exact .more _ hraised (by simpa only [List.set_set] using hback)

/-- A walk runs to its end while nothing tells it to give up. -/
theorem leadsTo_rest (hat : s.walks[i]? = some (.polling w)) (hquiet : s.giveUp = false) :
    LeadsTo (step base seed maxSteps) s
      { s with found := (w.rest seed.rank).isSome,
               walks := s.walks.set i (.returned (w.rest seed.rank)) } := by
  have hfound := (Bool.or_eq_false_iff.mp hquiet).1
  have hi := (List.getElem?_eq_some_iff.mp hat).1
  induction hremaining : w.remaining generalizing s w with
  | zero =>
      have hends := leadsTo_advance base seed maxSteps (.returned none) hat rfl
        (by simp only [Chain.advance?, hremaining])
      simpa only [Walker.rest_zero hremaining, Option.isSome_none, ← hfound] using hends
  | succ remaining ih =>
      have hsteps := leadsTo_advance base seed maxSteps (.stepping { w with remaining }) hat rfl
        (by simp [Chain.advance?, hremaining, hquiet])
      rw [Walker.rest_succ hremaining, Walker.restFromStep]
      refine hsteps.trans ?_
      cases hw : Walker.advance seed.rank { w with remaining } with
      | inl steps =>
          have hproves := leadsTo_advance base seed maxSteps
            (s := { s with walks := s.walks.set i (.stepping { w with remaining }) })
            (.proved steps) (List.getElem?_set_self hi) rfl (by simp only [Chain.advance?, hw])
          have hback := leadsTo_proved base seed maxSteps
            (s := { s with walks := s.walks.set i (.proved steps) }) (List.getElem?_set_self hi)
          simp only [List.set_set] at hproves hback
          exact hproves.trans hback
      | inr w' =>
          have hgoes := leadsTo_advance base seed maxSteps
            (s := { s with walks := s.walks.set i (.stepping { w with remaining }) })
            (.polling w') (List.getElem?_set_self hi) rfl (by simp only [Chain.advance?, hw])
          have hrest := ih (s := { s with walks := s.walks.set i (.polling w') }) (w := w')
            (List.getElem?_set_self hi) hquiet hfound (by rwa [List.length_set])
            (Walker.remaining_advance hw)
          simp only [List.set_set] at hgoes hrest
          exact hgoes.trans hrest

/-- A walk runs from its start to its end while nothing tells it to give up. -/
theorem leadsTo_alone (hat : s.walks[i]? = some .waiting) (hquiet : s.giveUp = false) :
    LeadsTo (step base seed maxSteps) s
      { s with found := (alone base seed maxSteps i).isSome,
               walks := s.walks.set i (.returned (alone base seed maxSteps i)) } := by
  have hfound := (Bool.or_eq_false_iff.mp hquiet).1
  have hi := (List.getElem?_eq_some_iff.mp hat).1
  by_cases hrank : seed.rank < 2
  · have hends := leadsTo_advance base seed maxSteps (.returned none) hat rfl
      (by simp only [Chain.advance?, if_pos hrank])
    simpa only [alone_of_lt hrank, Option.isSome_none, ← hfound] using hends
  · let start := Walker.start seed maxSteps (chainGenerator base i)
    have hstarts := leadsTo_advance base seed maxSteps (.polling start) hat rfl
      (by simp only [Chain.advance?, if_neg hrank, start])
    have hrest := leadsTo_rest base seed maxSteps
      (s := { s with walks := s.walks.set i (.polling start) }) (List.getElem?_set_self hi) hquiet
    rw [alone_of_not_lt hrank]
    exact hstarts.trans (by simpa only [List.set_set] using hrest)

/-- Once a walk has come back with a proof, the others need not begin. -/
theorem leadsTo_skipped (before : List Chain) (count : Nat)
    (hat : s.walks = before ++ List.replicate count .waiting)
    (hwinner : before.any Chain.isWinner = true) :
    LeadsTo (step base seed maxSteps) s
      { s with walks := before ++ List.replicate count .skipped } := by
  induction count generalizing before s with
  | zero =>
      rw [List.replicate_zero, List.append_nil] at hat
      subst hat
      simpa using LeadsTo.refl s
  | succ count ih =>
      have hwins : s.hasWinner = true := by
        rw [hasWinner, hat, List.any_append, hwinner, Bool.true_or]
      have hskip : step base seed maxSteps s (.skip before.length) =
          some { s with walks := before ++ .skipped :: List.replicate count .waiting } := by
        simp [step, hat, hwins, List.replicate_succ]
      have hrest := ih
        (s := { s with walks := before ++ .skipped :: List.replicate count .waiting })
        (before ++ [.skipped]) (by simp) (by rw [List.any_append, hwinner, Bool.true_or])
      exact .more _ hskip (by simpa [List.replicate_succ] using hrest)

/-- A walk that nobody stops leaves a token that nobody stops. -/
theorem runChain_eq (chain : Nat) {token : Token} (ht : token.NeverStops) :
    ∃ token', runChain base seed maxSteps chain token = (alone base seed maxSteps chain, token') ∧
      token'.NeverStops := by
  have hfound := randomWalk_agree Generator.draw seed maxSteps (chainGenerator base chain)
    Token.neverStops_running ht
  have hpolled := polled_randomWalk Generator.draw seed maxSteps (chainGenerator base chain)
    token
  exact ⟨_, Prod.ext hfound rfl, ht.polled hpolled⟩

/-- **The walks may run one after another**, up to the first that has a proof. -/
theorem exists_race_of_runChains (before : List Chain) (count : Nat)
    (hat : s.walks = before ++ List.replicate count .waiting)
    (hbefore : ∀ c ∈ before, c = .returned none) (hquiet : s.giveUp = false)
    (token : Token) (ht : token.NeverStops) :
    ∃ s', LeadsTo (step base seed maxSteps) s s' ∧ s'.callerStopped = false ∧ s'.isOver = true ∧
      s'.Answers (runChains base seed maxSteps count before.length token).1 := by
  have hcaller := (Bool.or_eq_false_iff.mp hquiet).2
  induction count generalizing before s token with
  | zero =>
      rw [List.replicate_zero, List.append_nil] at hat
      refine ⟨s, .refl s, hcaller, ?_, ?_⟩
      · rw [isOver, hat, List.all_eq_true]
        exact fun c hc => hbefore c hc ▸ rfl
      · show s.hasWinner = false
        rw [hasWinner, hat, List.any_eq_false]
        exact fun c hc => hbefore c hc ▸ nofun
  | succ count ih =>
      obtain ⟨token', hrun, ht'⟩ := runChain_eq base seed maxSteps before.length ht
      have hwaits : s.walks[before.length]? = some .waiting := by
        rw [hat, List.replicate_succ]
        simp
      have hruns := leadsTo_alone base seed maxSteps hwaits hquiet
      have hset (c : Chain) : s.walks.set before.length c =
          before ++ [c] ++ List.replicate count .waiting := by
        rw [hat, List.replicate_succ]
        simp
      rw [hset] at hruns
      rw [runChains, hrun]
      cases hfinds : alone base seed maxSteps before.length with
      | some steps =>
          rw [hfinds] at hruns
          let won := before ++ [.returned (some steps)]
          have hskips := leadsTo_skipped base seed maxSteps won count
            (s := { s with found := true, walks := won ++ List.replicate count .waiting }) rfl
            (by simp [won, Chain.isWinner])
          refine ⟨_, hruns.trans hskips, hcaller, ?_, ?_⟩
          · simp only [isOver, won, List.all_append, Bool.and_eq_true, List.all_eq_true]
            refine ⟨⟨fun c hc => hbefore c hc ▸ rfl, fun c hc => ?_⟩, fun c hc => ?_⟩
            · rw [List.mem_singleton.mp hc]
              rfl
            · rw [List.eq_of_mem_replicate hc]
              rfl
          · simp [Answers, won]
      | none =>
          rw [hfinds] at hruns
          let lost := before ++ [.returned none]
          obtain ⟨s', hleads, hend⟩ := ih
            (s := { s with found := false, walks := lost ++ List.replicate count .waiting }) lost
            rfl (by simpa [lost, or_imp, forall_and] using hbefore) hcaller token' ht' hcaller
          refine ⟨s', hruns.trans hleads, ?_⟩
          simpa [lost] using hend

end OneByOne

end Race

/-! ### All schedules -/

section AllSchedules

variable {cfg : HeuristicConfig} {base : UInt64} {seed : ExchangeMatrix} {outcome : Heuristic}

theorem mayReport_iff (hcert : seed.certifiesInfinite = false)
    (hwalked : ¬ (seed.rank < 2 ∨ seed.isSquare = true ∧ seed.rank < 3)) :
    MayReport cfg base seed outcome ↔ ∃ schedule s,
      followSchedule (Race.step base seed cfg.maxSteps) schedule (.initial (max cfg.chains 1)) =
          some s ∧
        s.callerStopped = false ∧ s.isOver = true ∧ s.Answers outcome := by
  rw [MayReport, hcert, if_neg Bool.false_ne_true, if_neg (by simpa using hwalked)]

/-- **What walks that race may report.** -/
theorem MayReport.isInfinite_iff (h : MayReport cfg base seed outcome)
    (hcert : seed.certifiesInfinite = false)
    (hwalked : ¬ (seed.rank < 2 ∨ seed.isSquare = true ∧ seed.rank < 3)) :
    outcome.isInfinite = true ↔
      ∃ chain < max cfg.chains 1, (alone base seed cfg.maxSteps chain).isSome = true := by
  obtain ⟨schedule, s, hfollow, hquiet, hover, hanswer⟩ := (mayReport_iff hcert hwalked).mp h
  exact (Race.followSchedule_sound hfollow).isInfinite_iff hquiet hover hanswer

/-- The walks one after another are one of the races. -/
theorem mayReport_proveInfinite (cfg : HeuristicConfig) (base : UInt64) (seed : ExchangeMatrix) :
    MayReport cfg base seed (proveInfinite cfg base seed .running).1 := by
  rw [MayReport, proveInfinite]
  split
  · rfl
  · split
    · rfl
    · obtain ⟨s, ⟨schedule, hfollow⟩, hend⟩ := Race.exists_race_of_runChains base seed cfg.maxSteps
        (s := .initial (max cfg.chains 1)) [] (max cfg.chains 1) rfl nofun rfl .running
        Token.neverStops_running
      exact ⟨schedule, s, hfollow, hend⟩

/-- **Walks that race combine as a disjunction.**  Whatever the order of their steps, while nobody
stops the token: they report a proof exactly when one of them finds one alone, and then that of the
walk alone that they name; no race goes on for ever or is stuck, and the walks one after another are
one of the races; and a proof is not lost when there are more walks, or longer ones. -/
theorem proveInfinite_anySchedule (cfg : HeuristicConfig) (base : UInt64) (seed : ExchangeMatrix)
    (hcert : seed.certifiesInfinite = false)
    (hwalked : ¬ (seed.rank < 2 ∨ seed.isSquare = true ∧ seed.rank < 3)) :
    (∀ outcome, MayReport cfg base seed outcome →
      (outcome.isInfinite = true ↔
        ∃ chain < max cfg.chains 1,
          (runChain base seed cfg.maxSteps chain .running).1.isSome = true) ∧
      ∀ steps chain, outcome = .infinite steps chain →
        chain < max cfg.chains 1 ∧
          (runChain base seed cfg.maxSteps chain .running).1 = some steps) ∧
    (∀ schedule s,
      followSchedule (Race.step base seed cfg.maxSteps) schedule (.initial (max cfg.chains 1)) =
          some s →
      s.callerStopped = false →
      schedule.length ≤ (Race.initial (max cfg.chains 1)).left cfg.maxSteps ∧
      ∃ s' outcome, LeadsTo (Race.step base seed cfg.maxSteps) s s' ∧
        s'.callerStopped = false ∧ s'.isOver = true ∧ s'.Answers outcome) ∧
    MayReport cfg base seed (proveInfinite cfg base seed .running).1 ∧
    ∀ cfg' outcome outcome', cfg.chains ≤ cfg'.chains → cfg.maxSteps ≤ cfg'.maxSteps →
      MayReport cfg base seed outcome → MayReport cfg' base seed outcome' →
      outcome.isInfinite = true → outcome'.isInfinite = true := by
  refine ⟨fun outcome h => ⟨h.isInfinite_iff hcert hwalked, ?_⟩,
    fun schedule s hfollow hquiet => ?_, mayReport_proveInfinite cfg base seed, ?_⟩
  · rintro steps chain rfl
    obtain ⟨schedule, s, hfollow, -, -, hanswer⟩ := (mayReport_iff hcert hwalked).mp h
    exact (Race.followSchedule_sound hfollow).alone_of_infinite hanswer
  · obtain ⟨-, hlength⟩ := Race.length_add_left_le hfollow hquiet
    obtain ⟨s', hleads, hquiet', hover⟩ := Race.exists_over base seed cfg.maxSteps s
    obtain ⟨outcome, hanswer⟩ := Race.exists_answers s'
    exact ⟨(Nat.le_add_right _ _).trans hlength, s', outcome, hleads, hquiet'.trans hquiet, hover,
      hanswer⟩
  · intro cfg' outcome outcome' hchains hsteps h h' hinfinite
    obtain ⟨chain, hlt, hfinds⟩ := (h.isInfinite_iff hcert hwalked).mp hinfinite
    obtain ⟨steps, hsome⟩ := Option.isSome_iff_exists.mp hfinds
    refine (h'.isInfinite_iff hcert hwalked).mpr ⟨chain, ?_, ?_⟩
    · exact hlt.trans_le (max_le_max_right 1 hchains)
    · rw [alone_mono hsteps hsome]
      rfl

end AllSchedules

end Walks

/-- Of two walks of three steps from an acyclic tournament only the second finds a proof, and no
race between them misses it. -/
theorem proveInfinite_anySchedule_tournament :
    let tournament := fourVertices [[0, 1, 1, 1], [-1, 0, 1, 1], [-1, -1, 0, 1], [-1, -1, -1, 0]]
    tournament.certifiesInfinite = false ∧
      ¬ (tournament.rank < 2 ∨ tournament.isSquare = true ∧ tournament.rank < 3) ∧
      (runChain 0 tournament 3 0 .running).1 = none ∧
      MayReport ⟨3, 2, some 0⟩ 0 tournament (.infinite 3 1) ∧
      ¬ MayReport ⟨3, 2, some 0⟩ 0 tournament .unknown := by
  intro tournament
  have hcert : tournament.certifiesInfinite = false := by decide +kernel
  have hwalked : ¬ (tournament.rank < 2 ∨ tournament.isSquare = true ∧ tournament.rank < 3) := by
    decide
  have hfinds : (runChain 0 tournament 3 1 .running).1.isSome = true := by decide +kernel
  have hreports : (proveInfinite ⟨3, 2, some 0⟩ 0 tournament .running).1 = .infinite 3 1 := by
    decide +kernel
  obtain ⟨hverdict, -, hone, -⟩ :=
    proveInfinite_anySchedule ⟨3, 2, some 0⟩ 0 tournament hcert hwalked
  refine ⟨hcert, hwalked, by decide +kernel, hreports ▸ hone, fun hunknown => ?_⟩
  cases (hverdict .unknown hunknown).1.mpr ⟨1, by decide, hfinds⟩

end MutationFinite
