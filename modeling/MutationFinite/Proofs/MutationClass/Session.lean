import MutationFinite.MutationClass.Enumeration
import MutationFinite.Proofs.Equivalence.Oracle

/-!
# Questions of a session

* `Session.run_bind`: a question goes on with the answer to its first part.
* `Session.Returns`: what a question answers in every session that nobody stops, one rule for each
  way to put a question together.
* `acquireOracle_eq`, `releaseOracle_eq`: an oracle is handed out for a rank, serves it, and is
  taken back.
-/

namespace MutationFinite

/-- Matrices of at most 64 mutable vertices are accepted. -/
theorem ExchangeMatrix.checkedRank_eq {m : ExchangeMatrix} (h : m.rank ≤ 64) :
    m.checkedRank = .ok m.rank :=
  if_neg (Nat.not_lt.mpr h)

namespace Session

variable {α β : Type} {s s' : Session}

/-- A question goes on with the answer to its first part. -/
theorem run_bind {x : SessionM α} {f : α → SessionM β} {a : α} (h : x.run s = (.ok a, s')) :
    (x >>= f).run s = (f a).run s' := by
  show (match x.run s with | (a, s') => ExceptT.bindCont f a s') = _
  rw [h]
  rfl

/-- A question that is answered has an answer to its first part, with which it goes on. -/
theorem exists_of_run_bind {x : SessionM α} {f : α → SessionM β} {b : β}
    (h : (x >>= f).run s = (.ok b, s')) :
    ∃ a s₁, x.run s = (.ok a, s₁) ∧ (f a).run s₁ = (.ok b, s') := by
  have hrun : (x >>= f).run s = match x.run s with | (a, s₁) => ExceptT.bindCont f a s₁ := rfl
  rw [hrun] at h
  rcases hx : x.run s with ⟨_ | a, s₁⟩
  · rw [hx] at h
    cases h
  · rw [hx] at h
    exact ⟨a, s₁, rfl, h⟩

theorem run_getThe (s : Session) : (getThe Session : SessionM Session).run s = (.ok s, s) := rfl

theorem run_withToken (f : Token → α × Token) (s : Session) :
    (withToken f).run s = (.ok (f s.token).1, ⟨s.context, (f s.token).2⟩) := rfl

/-- In every session that nobody stops, whatever it was asked before, the question has an answer
with the property `P`, and the session is one that nobody stops. -/
def Returns (question : SessionM α) (P : α → Prop) : Prop :=
  ∀ s : Session, s.token.NeverStops →
    ∃ a s', question.run s = (.ok a, s') ∧ s'.token.NeverStops ∧ P a

namespace Returns

variable {P P' : α → Prop} {Q : β → Prop} {x : SessionM α} {f : α → SessionM β} {a : α}

theorem ask (h : Returns x P) (ht : s.token.NeverStops) : ∃ a, (s.ask x).1 = .ok a ∧ P a := by
  obtain ⟨a, s', hrun, -, ha⟩ := h s ht
  exact ⟨a, congrArg Prod.fst hrun, ha⟩

theorem ask_eq (h : Returns x (· = a)) (ht : s.token.NeverStops) : (s.ask x).1 = .ok a := by
  obtain ⟨a, hask, rfl⟩ := h.ask ht
  exact hask

/-- A question has one answer in all sessions. -/
theorem unique {b : α} (ha : Returns x (· = a)) (hb : Returns x (· = b)) : a = b := by
  have hrunning : (Session.new .standard .running).token.NeverStops := Token.neverStops_running
  exact Except.ok.inj ((ha.ask_eq hrunning).symm.trans (hb.ask_eq hrunning))

theorem mono (h : Returns x P) (hP : ∀ a, P a → P' a) : Returns x P' := by
  intro s ht
  obtain ⟨a, s', hrun, ht', ha⟩ := h s ht
  exact ⟨a, s', hrun, ht', hP a ha⟩

theorem pure (ha : P a) : Returns (Pure.pure a) P := fun s ht => ⟨a, s, rfl, ht, ha⟩

theorem bind (hx : Returns x P) (hf : ∀ a, P a → Returns (f a) Q) : Returns (x >>= f) Q := by
  intro s ht
  obtain ⟨a, s', hrun, ht', ha⟩ := hx s ht
  obtain ⟨b, s'', hrun', ht'', hb⟩ := hf a ha s' ht'
  exact ⟨b, s'', (run_bind hrun).trans hrun', ht'', hb⟩

theorem bind_eq (hx : Returns x (· = a)) (hf : Returns (f a) Q) : Returns (x >>= f) Q :=
  hx.bind fun _ hb => hb ▸ hf

theorem ofExcept {x : Except Error α} (hx : x = .ok a) (ha : P a) :
    Returns (MonadExcept.ofExcept x) P := by
  subst hx
  exact .pure ha

theorem withToken {f : Token → α × Token}
    (hf : ∀ token : Token, token.NeverStops → (f token).2.NeverStops ∧ P (f token).1) :
    Returns (Session.withToken f) P := fun s ht =>
  ⟨_, _, run_withToken f s, hf s.token ht⟩

end Returns

end Session

/-- A session hands out an oracle that serves the rank, and keeps its token. -/
theorem acquireOracle_eq (n : Nat) (s : Session) :
    ∃ o context, (acquireOracle n).run s = (.ok o, Session.mk context s.token) ∧ o.Serves n := by
  obtain ⟨context, token⟩ := s
  unfold acquireOracle
  rw [Session.run_bind (Session.run_getThe _)]
  cases h : context.acquire n with
  | ok context' =>
      exact ⟨.cached (context'.checker n), context', by simp only [h]; rfl,
        context'.degree_checker n⟩
  | error e => exact ⟨.direct, context, by simp only [h]; rfl, trivial⟩

/-- An oracle is taken back, whatever it has learned. -/
theorem releaseOracle_eq (o : Oracle) (s : Session) :
    ∃ context, (releaseOracle o).run s = (.ok (), Session.mk context s.token) := by
  cases o with
  | direct => exact ⟨s.context, rfl⟩
  | cached checker => exact ⟨s.context.putChecker checker, rfl⟩

theorem acquireOracle_returns (n : Nat) :
    Session.Returns (acquireOracle n) (Oracle.Serves n) := by
  intro s ht
  obtain ⟨o, context, hrun, hserves⟩ := acquireOracle_eq n s
  exact ⟨o, _, hrun, ht, hserves⟩

theorem releaseOracle_returns (o : Oracle) :
    Session.Returns (releaseOracle o) fun _ => True := by
  intro s ht
  obtain ⟨context, hrun⟩ := releaseOracle_eq o s
  exact ⟨(), _, hrun, ht, trivial⟩

end MutationFinite
