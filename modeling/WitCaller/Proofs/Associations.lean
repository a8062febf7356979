import WitCaller.Assoc

/-!
Association lists after several values were set: which keys are there, in which order, and with
which values.
-/

namespace WitCaller.Assoc

variable {κ α : Type} [DecidableEq κ] {k : κ} {v : α} {l es ds : List (κ × α)}

theorem keys_insert : (insert k v l).map Prod.fst =
    if k ∈ l.map Prod.fst then l.map Prod.fst else l.map Prod.fst ++ [k] := by
  induction l with
  | nil => rfl
  | cons e r ih =>
    obtain ⟨k', v'⟩ := e
    by_cases hk : k' = k
    · simp [insert, hk]
    · simp only [insert, if_neg hk, List.map_cons, ih, List.mem_cons, Ne.symm hk, false_or]
      split <;> rfl

theorem mem_keys_of_get? (h : get? k l = some v) : k ∈ l.map Prod.fst := by
  induction l with
  | nil => cases h
  | cons e r ih =>
    obtain ⟨k', v'⟩ := e
    by_cases hk : k' = k
    · exact List.mem_cons.2 (.inl hk.symm)
    · rw [get?, if_neg hk] at h
      exact List.mem_cons_of_mem _ (ih h)

theorem insert_of_not_mem (h : k ∉ l.map Prod.fst) : insert k v l = l ++ [(k, v)] := by
  induction l with
  | nil => rfl
  | cons e r ih =>
    obtain ⟨k', v'⟩ := e
    rw [List.map_cons, List.mem_cons, not_or] at h
    rw [insert, if_neg (Ne.symm h.1), ih h.2, List.cons_append]

theorem nodup_keys_insert (h : (l.map Prod.fst).Nodup) : ((insert k v l).map Prod.fst).Nodup := by
  rw [keys_insert]
  split
  · exact h
  · next hk =>
    rw [List.nodup_append]
    refine ⟨h, by simp, ?_⟩
    rintro a ha b hb rfl
    exact hk (List.mem_singleton.1 hb ▸ ha)

theorem mem_of_mem_insert {e : κ × α} (h : e ∈ insert k v l) : e = (k, v) ∨ e ∈ l := by
  induction l with
  | nil => exact .inl (List.mem_singleton.1 h)
  | cons d r ih =>
    obtain ⟨k', v'⟩ := d
    rw [insert] at h
    split at h
    · rcases List.mem_cons.1 h with rfl | h
      · exact .inl rfl
      · exact .inr (List.mem_cons_of_mem _ h)
    · rcases List.mem_cons.1 h with rfl | h
      · exact .inr List.mem_cons_self
      · exact (ih h).imp_right (List.mem_cons_of_mem _)

/-- The list with values for keys, set one after the other. -/
def insertAll (l es : List (κ × α)) : List (κ × α) := es.foldl (fun l e => insert e.1 e.2 l) l

theorem insertAll_append : insertAll l (es ++ ds) = insertAll (insertAll l es) ds := List.foldl_append

theorem mem_of_mem_insertAll {e : κ × α} (h : e ∈ insertAll l es) : e ∈ l ∨ e ∈ es := by
  induction es generalizing l with
  | nil => exact .inl h
  | cons d es ih =>
    rcases ih h with h | h
    · exact (mem_of_mem_insert h).elim (fun he => .inr (he ▸ List.mem_cons_self)) .inl
    · exact .inr (List.mem_cons_of_mem _ h)

theorem nodup_keys_insertAll (h : (l.map Prod.fst).Nodup) : ((insertAll l es).map Prod.fst).Nodup := by
  induction es generalizing l with
  | nil => exact h
  | cons e es ih => exact ih (nodup_keys_insert h)

/-- New keys, each set once, are added in order. -/
theorem insertAll_of_nodup (h : ((l ++ es).map Prod.fst).Nodup) : insertAll l es = l ++ es := by
  induction es generalizing l with
  | nil => exact (List.append_nil l).symm
  | cons e es ih =>
    have he : e.1 ∉ l.map Prod.fst := by
      rw [List.map_append, List.nodup_append] at h
      exact fun hm => h.2.2 e.1 hm e.1 (by simp) rfl
    have hs : insertAll (l ++ [e]) es = l ++ [e] ++ es := ih (by simpa using h)
    rw [insertAll, List.foldl_cons, insert_of_not_mem he]
    exact hs.trans (List.append_assoc ..)

/-- The last value of a key counts. -/
theorem get?_insertAll : get? k (insertAll l es) = (es.reverse.lookup k).or (get? k l) := by
  induction es generalizing l with
  | nil => rfl
  | cons e es ih =>
    have hlast : (List.lookup k [e]).or (get? k l) = get? k (insert e.1 e.2 l) := by
      rw [get?_insert, List.lookup_cons, List.lookup_nil]
      by_cases hk : e.1 = k
      · simp [hk]
      · have hk' : (k == e.1) = false := beq_eq_false_iff_ne.2 (Ne.symm hk)
        simp [hk, hk']
    have hrest : get? k (insertAll (insert e.1 e.2 l) es) = _ := ih
    rw [insertAll, List.foldl_cons, List.reverse_cons, List.lookup_append, Option.or_assoc, hlast]
    exact hrest

end WitCaller.Assoc
