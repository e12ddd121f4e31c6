import Mathlib.Data.String.Basic
import PredicateLang.Value.Entries

/-!
# What entries hold

Entries are read by what is found under each key, which is what was set there last. Sorting
keeps this, and leaves each key once. So the sorted entries are known by what is found
under the keys: how often and in which order keys were set can be seen neither in them nor
in their number.
-/

namespace PredicateLang.Entries

variable {α : Type}

/-- The keys grow from each pair to the next. -/
def Ascending (entries : Entries α) : Prop :=
  entries.Pairwise fun p q => p.1 < q.1

/-- All that was set under a key, in order. -/
def under (key : String) (entries : Entries α) : List α :=
  (entries.filter fun p => p.1 = key).map Prod.snd

theorem under_cons (key k : String) (a : α) (rest : Entries α) :
    under key ((k, a) :: rest) = if k = key then a :: under key rest else under key rest := by
  by_cases hk : k = key <;> simp [under, hk]

theorem get?_cons (key k : String) (a : α) (rest : Entries α) :
    get? key ((k, a) :: rest) = (get? key rest).or (if k = key then some a else none) := by
  rw [get?]
  cases get? key rest <;> rfl

theorem mem_of_get? {key : String} {entries : Entries α} {a : α}
    (h : get? key entries = some a) : (key, a) ∈ entries := by
  induction entries with
  | nil => cases h
  | cons entry rest ih =>
    obtain ⟨k, b⟩ := entry
    rw [get?_cons, Option.or_eq_some_iff] at h
    rcases h with h | ⟨-, h⟩
    · exact List.mem_cons_of_mem _ (ih h)
    · split at h
      · rename_i hk
        cases h
        exact hk ▸ List.mem_cons_self ..
      · cases h

/-- Entries that come later count more. -/
theorem get?_append (key : String) (earlier later : Entries α) :
    get? key (earlier ++ later) = (get? key later).or (get? key earlier) := by
  induction earlier with
  | nil => simp [get?]
  | cons pair rest ih => rw [List.cons_append, get?_cons, get?_cons, ih, Option.or_assoc]

theorem mem_place {key : String} {a : α} {entries : Entries α} {p : String × α}
    (h : p ∈ place key a entries) : p = (key, a) ∨ p ∈ entries := by
  induction entries with
  | nil => exact .inl (List.mem_singleton.mp h)
  | cons pair rest ih =>
    rw [place] at h
    split at h
    · exact List.mem_cons.mp h
    · split at h
      · exact .inr h
      · rcases List.mem_cons.mp h with rfl | h
        · exact .inr (List.mem_cons_self ..)
        · exact (ih h).imp_right (List.mem_cons_of_mem _)

/-- What is placed counts less than what is there. -/
theorem get?_place (name key : String) (a : α) (entries : Entries α) :
    get? name (place key a entries) =
      (get? name entries).or (if key = name then some a else none) := by
  induction entries with
  | nil => exact get?_cons name key a []
  | cons pair rest ih =>
    obtain ⟨k, b⟩ := pair
    rw [place]
    split
    · exact get?_cons name key a ((k, b) :: rest)
    · split
      · rename_i heq
        subst heq
        rw [get?_cons, Option.or_assoc]
        split <;> simp
      · rename_i hne
        -- The two pairs have different keys, so that at most one of them is found.
        rw [get?_cons, get?_cons, ih, Option.or_assoc, Option.or_assoc]
        by_cases hk : k = name
        · have hkey : key ≠ name := fun hkey => hne (hkey.trans hk.symm)
          rw [if_pos hk, if_neg hkey, Option.none_or, Option.or_none]
        · rw [if_neg hk, Option.none_or, Option.or_none]

theorem Ascending.place {key : String} {a : α} {entries : Entries α} (h : Ascending entries) :
    Ascending (place key a entries) := by
  induction entries with
  | nil => exact List.pairwise_singleton ..
  | cons pair rest ih =>
    obtain ⟨hfirst, hrest⟩ := List.pairwise_cons.mp h
    rw [Entries.place]
    split
    · rename_i hlt
      refine List.pairwise_cons.mpr ⟨fun p hp => ?_, h⟩
      rcases List.mem_cons.mp hp with rfl | hp
      · exact hlt
      · exact lt_trans hlt (hfirst p hp)
    · rename_i hle
      split
      · exact h
      · rename_i hne
        refine List.pairwise_cons.mpr ⟨fun p hp => ?_, ih hrest⟩
        rcases mem_place hp with rfl | hp
        · exact lt_of_le_of_ne (not_lt.mp hle) (Ne.symm hne)
        · exact hfirst p hp

theorem ascending_sorted (entries : Entries α) : Ascending (sorted entries) := by
  induction entries with
  | nil => exact .nil
  | cons pair rest ih => exact ih.place

theorem get?_sorted (name : String) (entries : Entries α) :
    get? name (sorted entries) = get? name entries := by
  induction entries with
  | nil => rfl
  | cons pair rest ih => rw [sorted, get?_place, ih, get?_cons]

/-- In ascending entries each pair is found under its key. -/
theorem Ascending.mem_iff {entries : Entries α} (h : Ascending entries) {key : String} {a : α} :
    (key, a) ∈ entries ↔ get? key entries = some a := by
  refine ⟨fun hmem => ?_, mem_of_get?⟩
  induction entries with
  | nil => cases hmem
  | cons pair rest ih =>
    obtain ⟨k, b⟩ := pair
    obtain ⟨hfirst, hrest⟩ := List.pairwise_cons.mp h
    rw [get?_cons]
    rcases List.mem_cons.mp hmem with heq | hmem
    · cases heq
      have hnone : get? key rest = none := by
        refine Option.eq_none_iff_forall_ne_some.mpr fun c hc => ?_
        exact lt_irrefl key (hfirst _ (mem_of_get? hc))
      rw [hnone, Option.none_or, if_pos rfl]
    · rw [ih hrest hmem, Option.some_or]

theorem Ascending.nodup {entries : Entries α} (h : Ascending entries) : entries.Nodup := by
  refine List.Pairwise.imp (fun {p q} hlt heq => ?_) h
  rw [heq] at hlt
  exact lt_irrefl q.1 hlt

/-- Ascending entries are known by what is found under the keys. -/
theorem Ascending.ext {entries entries' : Entries α} (h : Ascending entries)
    (h' : Ascending entries') (hget : ∀ key, get? key entries = get? key entries') :
    entries = entries' := by
  have hperm : entries.Perm entries' := by
    refine (List.perm_ext_iff_of_nodup h.nodup h'.nodup).mpr fun p => ?_
    rw [h.mem_iff, h'.mem_iff, hget]
  exact hperm.eq_of_pairwise (fun p q _ _ hpq hqp => absurd (lt_trans hpq hqp) (lt_irrefl _)) h h'

theorem sorted_congr {entries entries' : Entries α}
    (h : ∀ key, get? key entries = get? key entries') : sorted entries = sorted entries' := by
  refine (ascending_sorted entries).ext (ascending_sorted entries') fun key => ?_
  rw [get?_sorted, get?_sorted, h]

theorem size_congr {entries entries' : Entries α}
    (h : ∀ key, get? key entries = get? key entries') : size entries = size entries' :=
  congrArg List.length (sorted_congr h)

/-- What is found under a key is what was set last. -/
theorem get?_eq_getLast? (key : String) (entries : Entries α) :
    get? key entries = (under key entries).getLast? := by
  induction entries with
  | nil => rfl
  | cons pair rest ih =>
    obtain ⟨k, a⟩ := pair
    rw [get?_cons, under_cons, ih]
    by_cases hk : k = key
    · rw [if_pos hk, if_pos hk, List.getLast?_cons]
      cases (under key rest).getLast? <;> rfl
    · rw [if_neg hk, if_neg hk, Option.or_none]

/-- In ascending entries one pair stands under a key, or none. -/
theorem Ascending.under_eq {entries : Entries α} (h : Ascending entries) (key : String) :
    under key entries = (get? key entries).toList := by
  induction entries with
  | nil => rfl
  | cons pair rest ih =>
    obtain ⟨k, a⟩ := pair
    obtain ⟨hfirst, hrest⟩ := List.pairwise_cons.mp h
    rw [get?_cons, under_cons, ih hrest]
    by_cases hk : k = key
    · have hnone : get? key rest = none := by
        refine Option.eq_none_iff_forall_ne_some.mpr fun b hget => ?_
        exact (hfirst _ (mem_of_get? hget)).ne hk
      rw [if_pos hk, if_pos hk, hnone]
      rfl
    · rw [if_neg hk, if_neg hk, Option.or_none]

end PredicateLang.Entries
