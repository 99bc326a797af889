import Mathlib.Tactic.Common

/-!
# Processes that may stop

A `Process` reads and writes a state and ends with a value, unless it stops before for a reason. Its
contract says what holds where it ends, and what holds wherever it stops: `Ensures P p Q E`.

* `Ensures.weaken`, `Ensures.pure`, `Ensures.bind`, `Ensures.ite` and `Ensures.forM` are the rules
  of the language; a loop over a list keeps what its body keeps from one prefix to the next.
* `Keeps I p` is the contract of a process that keeps `I`, whether it ends or stops.
* `Throughout R trace` reads a trace, newest event first: each event was in order when it was
  recorded.

Nothing here mentions the program.
-/

namespace Pixy.Found

/-- A process over the states `σ` that may stop for a reason in `ε`. -/
abbrev Process (σ ε α : Type) := ExceptT ε (StateM σ) α

namespace Process

variable {σ ε α β ι : Type}

/-- Where a process leaves the state, and with what. -/
def exec (p : Process σ ε α) (s : σ) : Except ε α × σ := StateT.run (ExceptT.run p) s

/-- **The contract of a process.** Started where `P` holds it ends where `Q` holds of its value, or
stops where `E` holds of the reason. -/
structure Ensures (P : σ → Prop) (p : Process σ ε α) (Q : α → σ → Prop) (E : ε → σ → Prop) :
    Prop where
  /-- What holds where it ends or stops. -/
  outcome : ∀ s, P s → match p.exec s with
    | (.ok value, s') => Q value s'
    | (.error reason, s') => E reason s'

/-- It keeps `I`, ending or stopping. -/
abbrev Keeps (I : σ → Prop) (p : Process σ ε α) : Prop := Ensures I p (fun _ => I) (fun _ => I)

variable {P P' : σ → Prop} {Q Q' : α → σ → Prop} {R : β → σ → Prop} {E E' : ε → σ → Prop}

/-- The rule of consequence: a triple holds from fewer states and promises less, both of the values
it returns and of the reasons for which it stops. -/
theorem Ensures.weaken {p : Process σ ε α} (hp : Ensures P p Q E) (hpre : ∀ s, P' s → P s)
    (hpost : ∀ value s, Q value s → Q' value s) (hstop : ∀ reason s, E reason s → E' reason s) :
    Ensures P' p Q' E' := by
  refine ⟨fun s hs => ?_⟩
  have hend := hp.outcome s (hpre s hs)
  revert hend
  rcases p.exec s with ⟨_ | _, s'⟩
  · exact hstop _ _
  · exact hpost _ _

/-- Returning a value changes nothing, so what is promised of the value must hold in the states it
starts from. -/
theorem Ensures.pure {value : α} (h : ∀ s, P s → Q value s) :
    Ensures P (pure value : Process σ ε α) Q E :=
  ⟨fun s hs => h s hs⟩

/-- Stopping for a reason changes nothing, so what is promised of the reason must hold in the states
it starts from. -/
theorem Ensures.throw {reason : ε} (h : ∀ s, P s → E reason s) :
    Ensures P (throw reason : Process σ ε α) Q E :=
  ⟨fun s hs => h s hs⟩

/-- An update of the state returns nothing and cannot stop; what is promised must hold of the
updated state. -/
theorem Ensures.modify {f : σ → σ} {Q : Unit → σ → Prop} (h : ∀ s, P s → Q () (f s)) :
    Ensures P (modify f : Process σ ε Unit) Q E :=
  ⟨fun s hs => h s hs⟩

/-- Reading the state changes nothing and cannot stop; the value that is promised about is the state
itself. -/
theorem Ensures.get {Q : σ → σ → Prop} (h : ∀ s, P s → Q s s) :
    Ensures P (get : Process σ ε σ) Q E :=
  ⟨fun s hs => h s hs⟩

/-- How two processes in sequence are executed: the second one starts where the first has ended, and
is not reached if that has stopped. -/
theorem exec_bind (p : Process σ ε α) (f : α → Process σ ε β) (s : σ) :
    (p >>= f).exec s = match p.exec s with
      | (.ok value, s') => (f value).exec s'
      | (.error reason, s') => (.error reason, s') := by
  show (StateT.run (ExceptT.run (p >>= f)) s) = _
  rw [ExceptT.run_bind, StateT.run_bind]
  unfold exec
  rcases StateT.run (ExceptT.run p) s with ⟨_ | _, s'⟩ <;> rfl

/-- **One process after another.** The second one begins where the first one ended, so its contract
may rest on what the first one promises about its value and the state. -/
theorem Ensures.bind {p : Process σ ε α} {f : α → Process σ ε β} (hp : Ensures P p Q E)
    (hf : ∀ value, Ensures (Q value) (f value) R E) : Ensures P (p >>= f) R E := by
  refine ⟨fun s hs => ?_⟩
  have hend := hp.outcome s hs
  rw [exec_bind]
  revert hend
  rcases p.exec s with ⟨reason | value, s'⟩
  · exact id
  · exact (hf value).outcome s'

/-- One process after another, where the contract of the first one says which value it returns, so
that only this value matters to the second. -/
theorem Ensures.bind_eq {p : Process σ ε α} {value : α} {P' : σ → Prop} {f : α → Process σ ε β}
    (hp : Ensures P p (fun value' s => value' = value ∧ P' s) E) (hf : Ensures P' (f value) R E) :
    Ensures P (p >>= f) R E := by
  refine .bind hp fun value' => ⟨fun s hs => ?_⟩
  obtain ⟨rfl, hs⟩ := hs
  exact hf.outcome s hs

/-- The rule for a branch: each side is proved under what the test has told about it. -/
theorem Ensures.ite {c : Prop} [Decidable c] {p p' : Process σ ε α} (hp : c → Ensures P p Q E)
    (hp' : ¬c → Ensures P p' Q E) : Ensures P (if c then p else p') Q E := by
  by_cases hc : c
  · rw [if_pos hc]
    exact hp hc
  · rw [if_neg hc]
    exact hp' hc

/-- The rule for a loop over a list, from the middle on: the invariant speaks of the items that are
done, and the body extends it by one item. -/
theorem Ensures.forM_from {I : List ι → σ → Prop} {f : ι → Process σ ε PUnit} (done items : List ι)
    (hbody : ∀ front item back, done ++ items = front ++ item :: back →
      Ensures (I front) (f item) (fun _ => I (front ++ [item])) E) :
    Ensures (I done) (items.forM f) (fun _ => I (done ++ items)) E := by
  induction items generalizing done with
  | nil =>
      rw [List.append_nil]
      exact .pure fun _ => id
  | cons item items ih =>
      refine .bind (hbody done item items rfl) fun _ => ?_
      have hrest := ih (done ++ [item])
      rw [← List.append_cons] at hrest
      exact hrest hbody

/-- **The rule of the loop**: the body takes the assertion of the items before to that of one item
more. -/
theorem Ensures.forM {I : List ι → σ → Prop} {f : ι → Process σ ε PUnit} {items : List ι}
    (hbody : ∀ front item back, items = front ++ item :: back →
      Ensures (I front) (f item) (fun _ => I (front ++ [item])) E) :
    Ensures (I []) (items.forM f) (fun _ => I items) E :=
  .forM_from [] items hbody

/-- What a contract says about one run: it ends in a value and a state as promised, or with one of
the reasons that the contract allows. -/
theorem Ensures.exec {p : Process σ ε α} (hp : Ensures P p Q E) {s s' : σ} {ending : Except ε α}
    (hs : P s) (hexec : p.exec s = (ending, s')) :
    (∀ value, ending = .ok value → Q value s') ∧
      (∀ reason, ending = .error reason → E reason s') := by
  have hend := hp.outcome s hs
  rw [hexec] at hend
  constructor
  · rintro value rfl
    exact hend
  · rintro reason rfl
    exact hend

/-- An assertion that a process keeps holds in the end if it held in the beginning, however the run
ended. -/
theorem Keeps.exec {I : σ → Prop} {p : Process σ ε α} (hp : Keeps I p) {s s' : σ}
    {ending : Except ε α} (hs : I s) (hexec : p.exec s = (ending, s')) : I s' := by
  obtain ⟨hok, herror⟩ := Ensures.exec hp hs hexec
  rcases ending with reason | value
  · exact herror reason rfl
  · exact hok value rfl

end Process

/-! ## Traces -/

section Trace

variable {ε : Type}

/-- Each event was in order, given the events before it. -/
def Throughout (R : ε → List ε → Prop) (trace : List ε) : Prop :=
  ∀ event before, event :: before <:+ trace → R event before

/-- Nothing is demanded of an empty trace, so every requirement on what precedes an event holds
throughout it. -/
theorem throughout_nil {R : ε → List ε → Prop} : Throughout R [] := by
  intro event before h
  cases List.suffix_nil.mp h

/-- A relation holds throughout a trace if it holds of the newest event and the ones before it, and
throughout these. -/
theorem throughout_cons {R : ε → List ε → Prop} {event : ε} {trace : List ε} :
    Throughout R (event :: trace) ↔ R event trace ∧ Throughout R trace := by
  constructor
  · intro h
    exact ⟨h event trace List.suffix_rfl, fun other before hother =>
      h other before (hother.trans (List.suffix_cons event trace))⟩
  · rintro ⟨hevent, htrace⟩ other before h
    obtain heq | hother := List.suffix_cons_iff.mp h
    · obtain ⟨rfl, rfl⟩ := List.cons.inj heq
      exact hevent
    · exact htrace other before hother

end Trace

end Pixy.Found
