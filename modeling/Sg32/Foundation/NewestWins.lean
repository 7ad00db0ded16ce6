/-
Tables that keep the newest value of each key.

A value comes with a key and a stamp; it replaces the value of its key when
its stamp is larger, so among values of one stamp the first one stays.

* `NewestOf` — the first value of largest stamp, with the values around it;
* `argmax_eq_some_iff_of_filter` — when the newest value of one kind is the newest of
  all;
* `lookup_mergeAll` — a table holds the newest of the values merged for a key;
* `lookup_mergeAll_congr` — the order of merging does not matter;
* `lookup_retain_eq_some_iff` — a table with some of its values removed.
-/
import Mathlib.Data.List.AList
import Mathlib.Data.List.MinMax

namespace NewestWins

variable {V ω : Type*} [LinearOrder ω] (stamp : V → ω)

/-- `v` is the first value of largest stamp: the values before it are older,
those after it are not newer. -/
structure NewestOf (before : List V) (v : V) (after : List V) : Prop where
  before : ∀ w ∈ before, stamp w < stamp v
  after : ∀ w ∈ after, stamp w ≤ stamp v

variable {stamp}

theorem argmax_of_newestOf {before after : List V} {v : V} (h : NewestOf stamp before v after) :
    (before ++ v :: after).argmax stamp = some v := by
  have hhead : (before ++ [v]).argmax stamp = some v := by
    rw [List.argmax_concat]
    cases hbest : before.argmax stamp with
    | none => rfl
    | some best => exact if_pos (h.before best (List.argmax_mem hbest))
  induction after using List.reverseRecOn with
  | nil => exact hhead
  | append_singleton after w ih =>
    have hinit := ih ⟨h.before, fun u hu => h.after u (List.mem_append_left _ hu)⟩
    have hle := h.after w (by simp)
    rw [← List.cons_append, ← List.append_assoc, List.argmax_concat, hinit]
    exact if_neg (not_lt.mpr hle)

variable (stamp) in
/-- The newest value of a list that is not empty. -/
theorem exists_newestOf {vs : List V} (hne : vs ≠ []) :
    ∃ before v after, vs = before ++ v :: after ∧ NewestOf stamp before v after := by
  -- a later value must be newer to take over
  induction vs using List.reverseRecOn with
  | nil => exact absurd rfl hne
  | append_singleton vs w ih =>
    by_cases hvs : vs = []
    · subst hvs
      exact ⟨[], w, [], rfl, by simp, by simp⟩
    obtain ⟨before, v, after, rfl, h⟩ := ih hvs
    by_cases hlt : stamp v < stamp w
    · -- `w` is newer than everything before it
      refine ⟨before ++ v :: after, w, [], rfl, ?_, by simp⟩
      intro u hu
      rcases List.mem_append.mp hu with hu | hu
      · exact (h.before u hu).trans hlt
      · rcases List.mem_cons.mp hu with rfl | hu
        · exact hlt
        · exact (h.after u hu).trans_lt hlt
    · refine ⟨before, v, after ++ [w], by simp, h.before, ?_⟩
      intro u hu
      rcases List.mem_append.mp hu with hu | hu
      · exact h.after u hu
      · rw [List.mem_singleton.mp hu]
        exact not_lt.mp hlt

theorem argmax_eq_some_iff_newestOf {vs : List V} {v : V} :
    vs.argmax stamp = some v ↔
      ∃ before after, vs = before ++ v :: after ∧ NewestOf stamp before v after := by
  constructor
  · intro h
    have hne : vs ≠ [] := by
      rintro rfl
      cases h
    obtain ⟨before, w, after, rfl, hnewest⟩ := exists_newestOf stamp hne
    rw [argmax_of_newestOf hnewest, Option.some.injEq] at h
    subst h
    exact ⟨before, after, rfl, hnewest⟩
  · rintro ⟨before, after, rfl, hnewest⟩
    exact argmax_of_newestOf hnewest

variable {p : V → Prop} [DecidablePred p]

variable (stamp) in
/-- The newest value of a kind, with the values around it. -/
theorem exists_newestOf_filter {vs : List V} (h : ∃ v ∈ vs, p v) :
    ∃ before v after, vs = before ++ v :: after ∧ p v ∧
      NewestOf stamp (before.filter p) v (after.filter p) := by
  obtain ⟨w, hmem, hw⟩ := h
  have hne : vs.filter p ≠ [] :=
    List.ne_nil_of_mem (List.mem_filter.mpr ⟨hmem, decide_eq_true hw⟩)
  obtain ⟨before, v, after, hsplit, hnewest⟩ := exists_newestOf stamp hne
  obtain ⟨before', rest, rfl, hbefore, hrest⟩ := List.filter_eq_append_iff.mp hsplit
  obtain ⟨skipped, after', rfl, hskipped, hpv, hafter⟩ := List.filter_eq_cons_iff.mp hrest
  have hnone : skipped.filter p = [] := List.filter_eq_nil_iff.mpr hskipped
  refine ⟨before' ++ skipped, v, after', by simp, of_decide_eq_true hpv, ?_⟩
  rw [List.filter_append, hnone, List.append_nil, hbefore, hafter]
  exact hnewest

/-- When the newest value of a kind is the newest of all: the other kinds have
nothing newer, and nothing as new before it. -/
theorem argmax_eq_some_iff_of_filter {before after : List V} {v : V} (hv : p v)
    (h : NewestOf stamp (before.filter p) v (after.filter p)) :
    (∃ w, (before ++ v :: after).argmax stamp = some w ∧ p w) ↔
      (∀ w ∈ before, ¬p w → stamp w < stamp v) ∧ ∀ w ∈ after, ¬p w → stamp w ≤ stamp v := by
  constructor
  · rintro ⟨w, hw, hpw⟩
    have hmem := List.argmax_mem hw
    have hmax : ∀ u ∈ before ++ v :: after, stamp u ≤ stamp w :=
      fun u hu => List.le_of_mem_argmax hu hw
    obtain ⟨before', after', hsplit, hnewest⟩ := argmax_eq_some_iff_newestOf.mp hw
    have hvw : stamp v ≤ stamp w := hmax v (by simp)
    have hwv : stamp w ≤ stamp v := by
      rcases List.mem_append.mp hmem with hin | hin
      · exact (h.before w (List.mem_filter.mpr ⟨hin, decide_eq_true hpw⟩)).le
      · rcases List.mem_cons.mp hin with rfl | hin
        · exact le_rfl
        · exact h.after w (List.mem_filter.mpr ⟨hin, decide_eq_true hpw⟩)
    refine ⟨fun u hu hnot => ?_, fun u hu _ => (hmax u (by simp [hu])).trans hwv⟩
    -- `u` is before `v`, so it is before `w`, which is not before `v`
    have hinitial : before <+: before' := by
      rcases List.append_eq_append_iff.mp hsplit with ⟨as, hbefore', -⟩ | ⟨as, hbefore, has⟩
      · exact ⟨as, hbefore'.symm⟩
      · cases as with
        | nil => exact ⟨[], by simp [hbefore]⟩
        | cons a as =>
          rw [List.cons_append, List.cons.injEq] at has
          have hin : w ∈ before := by
            rw [hbefore, has.1]
            simp
          have hlt := h.before w (List.mem_filter.mpr ⟨hin, decide_eq_true hpw⟩)
          exact absurd hvw (not_le.mpr hlt)
    exact (hnewest.before u (hinitial.subset hu)).trans_le hwv
  · rintro ⟨hbefore, hafter⟩
    refine ⟨v, argmax_of_newestOf ⟨fun w hw => ?_, fun w hw => ?_⟩, hv⟩
    · by_cases hpw : p w
      · exact h.before w (List.mem_filter.mpr ⟨hw, decide_eq_true hpw⟩)
      · exact hbefore w hw hpw
    · by_cases hpw : p w
      · exact h.after w (List.mem_filter.mpr ⟨hw, decide_eq_true hpw⟩)
      · exact hafter w hw hpw

/-! ### Tables -/

variable {κ : Type*} [DecidableEq κ] (key : V → κ) (stamp)

/-- Keep the newer value; the flag says whether it was the new one. -/
def merge (table : AList fun _ : κ => V) (v : V) : (AList fun _ : κ => V) × Bool :=
  match table.lookup (key v) with
  | some old => if stamp v ≤ stamp old then (table, false) else (table.insert (key v) v, true)
  | none => (table.insert (key v) v, true)

/-- The table after a sequence of merges. -/
def mergeAll (vs : List V) : AList fun _ : κ => V :=
  vs.foldl (fun table v => (merge stamp key table v).1) ∅

variable {stamp} {key}

theorem lookup_merge_ne (table : AList fun _ : κ => V) {v : V} {k : κ} (hk : k ≠ key v) :
    (merge stamp key table v).1.lookup k = table.lookup k := by
  rw [merge]
  split
  · split_ifs
    · rfl
    · exact AList.lookup_insert_ne hk
  · exact AList.lookup_insert_ne hk

theorem lookup_merge_self (table : AList fun _ : κ => V) (v : V) :
    (merge stamp key table v).1.lookup (key v) =
      match table.lookup (key v) with
      | some old => if stamp old < stamp v then some v else some old
      | none => some v := by
  rw [merge]
  split
  · rename_i old hold
    by_cases hle : stamp v ≤ stamp old
    · rw [if_pos hle, if_neg (not_lt.mpr hle), hold]
    · rw [if_neg hle, if_pos (not_le.mp hle), AList.lookup_insert]
  · exact AList.lookup_insert _

/-- **A table holds the newest value merged for a key.** -/
theorem lookup_mergeAll (vs : List V) (k : κ) :
    (mergeAll stamp key vs).lookup k = (vs.filter fun v => key v = k).argmax stamp := by
  induction vs using List.reverseRecOn with
  | nil => rfl
  | append_singleton vs v ih =>
    rw [mergeAll, List.foldl_append, List.foldl_cons, List.foldl_nil, List.filter_append]
    rw [mergeAll] at ih
    by_cases hk : key v = k
    · subst hk
      rw [lookup_merge_self, ih, List.filter_cons_of_pos (by simp), List.filter_nil,
        List.argmax_concat]
      cases (vs.filter fun w => key w = key v).argmax stamp <;> rfl
    · rw [lookup_merge_ne _ (Ne.symm hk), ih]
      simp [hk]

/-- The entry of a key is the first of the newest values merged for it. -/
theorem lookup_mergeAll_eq_some_iff {vs : List V} {k : κ} {v : V} :
    (mergeAll stamp key vs).lookup k = some v ↔
      ∃ before after, vs = before ++ v :: after ∧ key v = k ∧
        NewestOf stamp (before.filter fun w => key w = k) v (after.filter fun w => key w = k) := by
  rw [lookup_mergeAll]
  constructor
  · intro h
    have hmem := (List.mem_filter.mp (List.argmax_mem h)).1
    have hkey := of_decide_eq_true (List.mem_filter.mp (List.argmax_mem h)).2
    obtain ⟨before, w, after, rfl, hw, hnewest⟩ :=
      exists_newestOf_filter stamp (p := fun w => key w = k) ⟨v, hmem, hkey⟩
    rw [List.filter_append, List.filter_cons_of_pos (by simp [hw]),
      argmax_of_newestOf hnewest, Option.some.injEq] at h
    subst h
    exact ⟨before, after, rfl, hw, hnewest⟩
  · rintro ⟨before, after, rfl, hkey, hnewest⟩
    rw [List.filter_append, List.filter_cons_of_pos (by simp [hkey])]
    exact argmax_of_newestOf hnewest

theorem merge_flag_iff (table : AList fun _ : κ => V) (v : V) :
    (merge stamp key table v).2 = true ↔
      ∀ old, table.lookup (key v) = some old → stamp old < stamp v := by
  rw [merge]
  cases table.lookup (key v) with
  | none => simp
  | some old =>
    show (if stamp v ≤ stamp old then (table, false) else _).2 = true ↔ _
    split_ifs with hle
    · simpa using hle
    · simpa using hle

/-- A merge reports a new value exactly if the value is newer than all of its
key before it. -/
theorem merge_mergeAll_flag_iff (before : List V) (v : V) :
    (merge stamp key (mergeAll stamp key before) v).2 = true ↔
      ∀ w ∈ before, key w = key v → stamp w < stamp v := by
  rw [merge_flag_iff, lookup_mergeAll]
  constructor
  · intro h w hw hkey
    have hmem : w ∈ before.filter fun u => key u = key v :=
      List.mem_filter.mpr ⟨hw, decide_eq_true hkey⟩
    -- some value of the key is the newest, and `w` is not newer than it
    obtain ⟨best, hbest⟩ : ∃ best, (before.filter fun u => key u = key v).argmax stamp =
        some best := by
      rw [← Option.ne_none_iff_exists', Ne, List.argmax_eq_none]
      exact List.ne_nil_of_mem hmem
    exact (List.le_of_mem_argmax hmem hbest).trans_lt (h best hbest)
  · intro h old hold
    obtain ⟨hmem, hkey⟩ := List.mem_filter.mp (List.argmax_mem hold)
    exact h old hmem (of_decide_eq_true hkey)

theorem lookup_mergeAll_of_forall_le {vs : List V} {v : V} (hv : v ∈ vs)
    (hmax : ∀ w ∈ vs, key w = key v → stamp w ≤ stamp v)
    (hinj : ∀ w ∈ vs, key w = key v → stamp w = stamp v → w = v) :
    (mergeAll stamp key vs).lookup (key v) = some v := by
  have hmem : v ∈ vs.filter fun u => key u = key v :=
    List.mem_filter.mpr ⟨hv, decide_eq_true rfl⟩
  obtain ⟨best, hbest⟩ : ∃ best, (vs.filter fun u => key u = key v).argmax stamp = some best := by
    rw [← Option.ne_none_iff_exists', Ne, List.argmax_eq_none]
    exact List.ne_nil_of_mem hmem
  obtain ⟨hin, hkey⟩ := List.mem_filter.mp (List.argmax_mem hbest)
  have hstamp : stamp best = stamp v :=
    (hmax best hin (of_decide_eq_true hkey)).antisymm (List.le_of_mem_argmax hmem hbest)
  rw [lookup_mergeAll, hbest, hinj best hin (of_decide_eq_true hkey) hstamp]

/-- **The order of merging does not matter**, nor how often a value is merged,
when no two values share key and stamp. -/
theorem lookup_mergeAll_congr {vs vs' : List V} (hsame : ∀ v, v ∈ vs' ↔ v ∈ vs)
    (hinj : ∀ v ∈ vs, ∀ w ∈ vs, key v = key w → stamp v = stamp w → v = w) (k : κ) :
    (mergeAll stamp key vs').lookup k = (mergeAll stamp key vs).lookup k := by
  cases hlookup : (mergeAll stamp key vs).lookup k with
  | none =>
    rw [lookup_mergeAll, List.argmax_eq_none, List.filter_eq_nil_iff] at hlookup ⊢
    intro w hw
    exact hlookup w ((hsame w).mp hw)
  | some v =>
    rw [lookup_mergeAll] at hlookup
    obtain ⟨hv, hkey⟩ := List.mem_filter.mp (List.argmax_mem hlookup)
    obtain rfl := of_decide_eq_true hkey
    refine lookup_mergeAll_of_forall_le ((hsame v).mpr hv) ?_ ?_
    · intro w hw hwv
      exact List.le_of_mem_argmax
        (List.mem_filter.mpr ⟨(hsame w).mp hw, decide_eq_true hwv⟩) hlookup
    · intro w hw hwv hstamp
      exact hinj w ((hsame w).mp hw) v hv hwv hstamp

/-! ### Removing values -/

/-- The table with the values that `keep` holds of. -/
def retain (keep : κ → V → Bool) (table : AList fun _ : κ => V) : AList fun _ : κ => V :=
  ⟨table.entries.filter fun entry => keep entry.1 entry.2,
    table.nodupKeys.sublist List.filter_sublist⟩

theorem lookup_retain_eq_some_iff {keep : κ → V → Bool} {table : AList fun _ : κ => V} {k : κ}
    {v : V} :
    (retain keep table).lookup k = some v ↔ table.lookup k = some v ∧ keep k v = true := by
  rw [← Option.mem_def, ← Option.mem_def, AList.mem_lookup_iff, AList.mem_lookup_iff, retain,
    List.mem_filter]

theorem retain_eq_self {keep : κ → V → Bool} {table : AList fun _ : κ => V}
    (h : ∀ k v, table.lookup k = some v → keep k v = true) : retain keep table = table := by
  refine AList.ext (List.filter_eq_self.mpr ?_)
  rintro ⟨k, v⟩ hmem
  exact h k v (AList.mem_lookup_iff.mpr hmem)

end NewestWins
