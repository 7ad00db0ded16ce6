/-
Event loops (a program that waits for one of several things, over and over).

A step takes one event, may fail, and puts out a list; a run takes a list of
events and collects all that is put out.  The loop may also wait for a timer
that is made anew in every turn: it fires only when nothing arrives first.

* `react_append_eq_ok` — a run in two parts;
* `react_invariant` — what every step keeps of events, state and log;
* `mem_log` — what the log holds was put out by one step of the run;
* `react_refines` — a part of the state that follows another machine;
* `collect_append`, `mem_collect` — what events bring when a clock lets it through;
* `Schedule.mem_of_noGap` — a timer made anew in every turn waits for the last
  of a dense stream of arrivals.
-/
import Mathlib.Data.List.Forall2
import Mathlib.Data.List.Induction
import Mathlib.Order.Lattice
import Mathlib.Tactic.Common

namespace Reactor

variable {ε σ τ α β ω : Type}

theorem except_bind_eq_ok {x : Except ε α} {f : α → Except ε β} {b : β} :
    x >>= f = .ok b ↔ ∃ a, x = .ok a ∧ f a = .ok b := by
  rcases x with err | a <;> simp [bind, Except.bind]

/-- The state after the events, and all that was put out. -/
def react (step : σ → α → Except ε (σ × List ω)) : σ → List α → Except ε (σ × List ω)
  | s, [] => .ok (s, [])
  | s, e :: events => do
    let (mid, out) ← step s e
    let (s', log) ← react step mid events
    .ok (s', out ++ log)

variable {step : σ → α → Except ε (σ × List ω)} {s s' : σ} {events : List α} {log : List ω}

theorem react_cons_eq_ok {e : α} : react step s (e :: events) = .ok (s', log) ↔
    ∃ mid out rest, step s e = .ok (mid, out) ∧ react step mid events = .ok (s', rest) ∧
      log = out ++ rest := by
  rw [react]
  rcases step s e with err | ⟨mid, out⟩
  · simp [bind, Except.bind]
  · rcases hrest : react step mid events with err | ⟨s'', rest⟩
    · simp [bind, Except.bind, hrest]
    · simp only [bind, Except.bind, hrest, Except.ok.injEq, Prod.mk.injEq]
      constructor
      · rintro ⟨rfl, rfl⟩
        exact ⟨mid, out, rest, ⟨rfl, rfl⟩, hrest, rfl⟩
      · rintro ⟨mid', out', rest', ⟨rfl, rfl⟩, hrest', rfl⟩
        rw [hrest] at hrest'
        cases hrest'
        exact ⟨rfl, rfl⟩

theorem react_append_eq_ok {more : List α} : react step s (events ++ more) = .ok (s', log) ↔
    ∃ mid first rest, react step s events = .ok (mid, first) ∧
      react step mid more = .ok (s', rest) ∧ log = first ++ rest := by
  induction events generalizing s log with
  | nil =>
    rw [List.nil_append, react]
    constructor
    · intro h
      exact ⟨s, [], log, rfl, h, rfl⟩
    · rintro ⟨mid, first, rest, hfirst, hrest, rfl⟩
      cases hfirst
      exact hrest
  | cons e events ih =>
    rw [List.cons_append, react_cons_eq_ok]
    constructor
    · rintro ⟨mid, out, rest, hstep, hrest, rfl⟩
      obtain ⟨mid', first, last, hfirst, hlast, rfl⟩ := ih.mp hrest
      exact ⟨mid', out ++ first, last, react_cons_eq_ok.mpr ⟨mid, out, first, hstep, hfirst, rfl⟩,
        hlast, (List.append_assoc ..).symm⟩
    · rintro ⟨mid', first, rest, hfirst, hrest, rfl⟩
      obtain ⟨mid, out, tail, hstep, htail, rfl⟩ := react_cons_eq_ok.mp hfirst
      exact ⟨mid, out, tail ++ rest, hstep, ih.mpr ⟨mid', tail, rest, htail, hrest, rfl⟩,
        List.append_assoc ..⟩

theorem react_concat_eq_ok {e : α} : react step s (events ++ [e]) = .ok (s', log) ↔
    ∃ mid first out, react step s events = .ok (mid, first) ∧ step mid e = .ok (s', out) ∧
      log = first ++ out := by
  rw [react_append_eq_ok]
  constructor
  · rintro ⟨mid, first, rest, hfirst, hrest, rfl⟩
    obtain ⟨mid', out, rest, hstep, hnil, rfl⟩ := react_cons_eq_ok.mp hrest
    cases hnil
    exact ⟨mid, first, out, hfirst, hstep, by rw [List.append_nil]⟩
  · rintro ⟨mid, first, out, hfirst, hstep, rfl⟩
    exact ⟨mid, first, out, hfirst,
      react_cons_eq_ok.mpr ⟨s', out, [], hstep, rfl, (List.append_nil out).symm⟩, rfl⟩

/-- **What every step keeps**, of the events so far, the state and the log. -/
theorem react_invariant (Inv : List α → σ → List ω → Prop) (hstart : Inv [] s [])
    (hstep : ∀ seen mid out e next new, Inv seen mid out → step mid e = .ok (next, new) →
      Inv (seen ++ [e]) next (out ++ new))
    (hrun : react step s events = .ok (s', log)) : Inv events s' log := by
  induction events using List.reverseRecOn generalizing s' log with
  | nil =>
    cases hrun
    exact hstart
  | append_singleton events e ih =>
    obtain ⟨mid, first, out, hfirst, hlast, rfl⟩ := react_concat_eq_ok.mp hrun
    exact hstep events mid first e s' out (ih hfirst) hlast

/-- **Where the log comes from**: one step of the run put it out. -/
theorem mem_log (hrun : react step s events = .ok (s', log)) {o : ω} :
    o ∈ log ↔ ∃ before e after mid first next out, events = before ++ e :: after ∧
      react step s before = .ok (mid, first) ∧ step mid e = .ok (next, out) ∧ o ∈ out := by
  constructor
  · intro ho
    induction events using List.reverseRecOn generalizing s' log with
    | nil =>
      cases hrun
      cases ho
    | append_singleton events e ih =>
      obtain ⟨mid, first, out, hfirst, hlast, rfl⟩ := react_concat_eq_ok.mp hrun
      rcases List.mem_append.mp ho with hold | hnew
      · obtain ⟨before, e', after, mid', first', next, out', rfl, hrest⟩ := ih hfirst hold
        exact ⟨before, e', after ++ [e], mid', first', next, out', by simp, hrest⟩
      · exact ⟨events, e, [], mid, first, s', out, rfl, hfirst, hlast, hnew⟩
  · rintro ⟨before, e, after, mid, first, next, out, rfl, hbefore, hstep, ho⟩
    obtain ⟨mid', first', rest, hbefore', hrest, rfl⟩ := react_append_eq_ok.mp hrun
    obtain ⟨next', out', rest, hstep', -, rfl⟩ := react_cons_eq_ok.mp hrest
    rw [hbefore] at hbefore'
    cases hbefore'
    rw [hstep] at hstep'
    cases hstep'
    exact List.mem_append_right _ (List.mem_append_left _ ho)

/-! ### A part of the state that follows another machine -/

/-- **A part of the state that does what another machine does** with what each
event delivers to it, failures included. -/
theorem react_refines (view : σ → τ) (deliver : α → List β) {f : τ → β → Except ε τ}
    (hstep : ∀ s e, (step s e).map (fun r => view r.1) = (deliver e).foldlM f (view s)) :
    (react step s events).map (fun r => view r.1) = (events.flatMap deliver).foldlM f (view s) := by
  induction events generalizing s with
  | nil => rfl
  | cons e events ih =>
    rw [List.flatMap_cons, List.foldlM_append, ← hstep, react]
    rcases step s e with err | ⟨mid, out⟩
    · rfl
    · show Except.map _ (Except.bind (react step mid events) _) = _
      refine Eq.trans ?_ (ih (s := mid))
      rcases react step mid events with err | ⟨s', log⟩ <;> rfl

/-! ### What a clock lets through -/

section Clock

variable {κ : Type} {time : κ → α → κ} {f : κ → α → List β} {now : κ}

/-- What the events bring, when that depends on a clock which they set. -/
def collect (time : κ → α → κ) (f : κ → α → List β) : κ → List α → List β
  | _, [] => []
  | now, e :: events => f now e ++ collect time f (time now e) events

theorem collect_append (time : κ → α → κ) (f : κ → α → List β) (now : κ) (events more : List α) :
    collect time f now (events ++ more) =
      collect time f now events ++ collect time f (events.foldl time now) more := by
  induction events generalizing now with
  | nil => rfl
  | cons e events ih => rw [List.cons_append, collect, collect, ih, List.append_assoc]; rfl

theorem collect_concat (time : κ → α → κ) (f : κ → α → List β) (now : κ) (events : List α) (e : α) :
    collect time f now (events ++ [e]) =
      collect time f now events ++ f (events.foldl time now) e := by
  rw [collect_append, collect, collect, List.append_nil]

theorem mem_collect {b : β} : b ∈ collect time f now events ↔
    ∃ before e after, events = before ++ e :: after ∧ b ∈ f (before.foldl time now) e := by
  induction events generalizing now with
  | nil => simp [collect]
  | cons e events ih =>
    rw [collect, List.mem_append, ih]
    constructor
    · rintro (hb | ⟨before, e', after, rfl, hb⟩)
      · exact ⟨[], e, events, rfl, hb⟩
      · exact ⟨e :: before, e', after, rfl, hb⟩
    · rintro ⟨before, e', after, hsplit, hb⟩
      cases before with
      | nil =>
        cases hsplit
        exact .inl hb
      | cons e'' before =>
        cases hsplit
        exact .inr ⟨before, e', after, rfl, hb⟩

end Clock

/-! ### A timer made anew in every turn -/

/-- The turns of a loop entered at `now`, each with its time: it takes what
arrives, in order, and its timer fires when nothing arrived for `timeout`.
At that very moment either may come first; handling a turn takes time. -/
inductive Schedule (timeout : ℕ) : ℕ → List (ℕ × α) → List (ℕ × Option α) → Prop
  | stop (now : ℕ) (arrivals : List (ℕ × α)) : Schedule timeout now arrivals []
  | arrival {now time took : ℕ} {x : α} {arrivals : List (ℕ × α)} {turns : List (ℕ × Option α)}
      (first : time ≤ now + timeout)
      (rest : Schedule timeout (max now time + took) arrivals turns) :
      Schedule timeout now ((time, x) :: arrivals) ((max now time, some x) :: turns)
  | wake {now took : ℕ} {arrivals : List (ℕ × α)} {turns : List (ℕ × Option α)}
      (quiet : ∀ a ∈ arrivals, now + timeout ≤ a.1)
      (rest : Schedule timeout (now + timeout + took) arrivals turns) :
      Schedule timeout now arrivals ((now + timeout, none) :: turns)

/-- No gap of `timeout` from `now` on to the last arrival. -/
def NoGap (timeout : ℕ) : ℕ → List (ℕ × α) → Prop
  | _, [] => True
  | now, a :: arrivals => a.1 < now + timeout ∧ NoGap timeout a.1 arrivals

theorem NoGap.mono {timeout now later : ℕ} {arrivals : List (ℕ × α)} (hle : now ≤ later)
    (h : NoGap timeout now arrivals) : NoGap timeout later arrivals := by
  cases arrivals with
  | nil => trivial
  | cons a arrivals => exact ⟨by have := h.1; omega, h.2⟩

/-- **A dense stream starves the timer**: the turns take the arrivals one after
the other, and the timer does not fire before the last. -/
theorem Schedule.take_eq {timeout now : ℕ} {arrivals : List (ℕ × α)}
    {turns : List (ℕ × Option α)} (h : Schedule timeout now arrivals turns)
    (hgap : NoGap timeout now arrivals) :
    (turns.map Prod.snd).take arrivals.length =
      (arrivals.map fun a => some a.2).take turns.length := by
  induction h with
  | stop now arrivals => simp
  | @arrival now time took x arrivals turns first rest ih =>
    have hrest := hgap.2.mono (le_max_right now time |>.trans (Nat.le_add_right _ took))
    simp only [List.map_cons, List.length_cons, List.take_succ_cons, ih hrest]
  | @wake now took arrivals turns quiet rest ih =>
    cases arrivals with
    | nil => simp
    | cons a arrivals =>
      have hquiet := quiet a List.mem_cons_self
      have hfirst := hgap.1
      omega

/-- The event of a turn: what arrived, or the end of a wait. -/
def TurnOf (ends : α → Prop) (turn : ℕ × Option α) (e : α) : Prop :=
  match turn.2 with
  | some x => e = x
  | none => ends e

/-- **No wait ends** before the last of a dense stream has been taken. -/
theorem Schedule.mem_of_noGap {timeout now : ℕ} {arrivals : List (ℕ × α)}
    {turns : List (ℕ × Option α)} {ends : α → Prop} (h : Schedule timeout now arrivals turns)
    (hgap : NoGap timeout now arrivals) (hfits : List.Forall₂ (TurnOf ends) turns events) :
    ∀ e ∈ events.take arrivals.length, ∃ a ∈ arrivals, e = a.2 := by
  intro e he
  have htake := h.take_eq hgap
  obtain ⟨i, hi, rfl⟩ := List.getElem_of_mem he
  rw [List.length_take, lt_inf_iff] at hi
  have hturn : i < turns.length := hfits.length_eq ▸ hi.2
  have hget := congrArg (fun l => l[i]?) htake
  rw [List.getElem?_take_of_lt hi.1, List.getElem?_take_of_lt hturn, List.getElem?_map,
    List.getElem?_map, List.getElem?_eq_getElem hturn, List.getElem?_eq_getElem hi.1] at hget
  have hfit := hfits.get hturn hi.2
  simp only [Option.map_some, Option.some.injEq] at hget
  simp only [TurnOf, List.get_eq_getElem, hget] at hfit
  exact ⟨_, List.getElem_mem hi.1, by rw [List.getElem_take, hfit]⟩

end Reactor
