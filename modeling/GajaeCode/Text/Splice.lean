import Mathlib

/-! Splices of a list, and the two ways the edits of a batch are related to their result:
splicing from the largest index down is one pass over the original, and elements that an
order-preserving map assigns to the chunks that hold them survive in the concatenation. -/
namespace GajaeCode.Text
open List

variable {α β : Type*}

/-- `xs.splice(idx, count, ...items)`. -/
def splice (xs : List α) (idx count : Nat) (items : List α) : List α :=
  xs.take idx ++ items ++ xs.drop (idx + count)

/-- One pass that replaces each element by a chunk, the first element being number `start`. -/
def onePass (chunk : Nat → α → List α) : Nat → List α → List α
  | _, [] => []
  | start, x :: xs => chunk start x ++ onePass chunk (start + 1) xs

variable (chunk : Nat → α → List α)

theorem onePass_append (start : Nat) (xs ys : List α) : onePass chunk start (xs ++ ys) =
      onePass chunk start xs ++ onePass chunk (start + xs.length) ys := by
  induction xs generalizing start with
  | nil => simp [onePass]
  | cons x xs ih => simp [onePass, ih, Nat.add_assoc, Nat.add_comm 1]

theorem onePass_congr {chunk chunk' start} {xs : List α}
    (h : ∀ k x, start ≤ k → k < start + xs.length → chunk k x = chunk' k x) :
    onePass chunk start xs = onePass chunk' start xs := by
  induction xs generalizing start with
  | nil => rfl
  | cons x xs ih =>
    rw [onePass, onePass, h start x le_rfl (by simp), ih]
    intro k y hk hlt
    exact h k y (by omega) (by simp only [length_cons]; omega)

theorem onePass_singleton (start : Nat) (xs : List α) : onePass (fun _ x => [x]) start xs = xs := by
  induction xs generalizing start with
  | nil => rfl
  | cons x xs ih => simp [onePass, ih]

theorem foldl_splice_append (d : α) (keys : List Nat) (xs ys : List α)
    (hsorted : keys.Pairwise (· > ·)) (hrange : ∀ k ∈ keys, 1 ≤ k ∧ k ≤ xs.length) :
    keys.foldl (fun acc k => splice acc (k - 1) 1 (chunk k (acc.getD (k - 1) d))) (xs ++ ys) =
      onePass (fun k x => if k ∈ keys then chunk k x else [x]) 1 xs ++ ys := by
  induction keys generalizing xs ys with
  | nil => simp [onePass_singleton]
  | cons k keys ih =>
    obtain ⟨hk, hlen⟩ := hrange k (by simp)
    obtain ⟨hbelow, hsorted⟩ := pairwise_cons.mp hsorted
    have hidx : k - 1 < xs.length := by omega
    have hxs : xs = xs.take (k - 1) ++ xs[k - 1] :: xs.drop k := by
      have hdrop := drop_eq_getElem_cons hidx
      rw [show k - 1 + 1 = k by omega] at hdrop
      rw [← hdrop, take_append_drop]
    have hgetD : (xs ++ ys).getD (k - 1) d = xs[k - 1] := by
      rw [getD_eq_getElem?_getD, getElem?_append_left hidx, getElem?_eq_getElem hidx, Option.getD_some]
    have htake : (xs.take (k - 1)).length = k - 1 := by
      rw [length_take]
      omega
    have hsplice : splice (xs ++ ys) (k - 1) 1 (chunk k xs[k - 1]) =
        xs.take (k - 1) ++ (chunk k xs[k - 1] ++ (xs.drop k ++ ys)) := by
      rw [splice, show k - 1 + 1 = k by omega, take_append_of_le_length (by omega), drop_append_of_le_length hlen]
      simp only [append_assoc]
    rw [foldl_cons, hgetD, hsplice, ih _ _ hsorted]
    · conv_rhs => rw [hxs, onePass_append, onePass, htake, show 1 + (k - 1) = k by omega, if_pos (by simp)]
      have hleft : onePass (fun k x => if k ∈ keys then chunk k x else [x]) 1
          (xs.take (k - 1)) = onePass (fun j x => if j ∈ k :: keys then chunk j x else [x]) 1
            (xs.take (k - 1)) := by
        apply onePass_congr
        intro j x _ hj
        have hne : j ≠ k := by omega
        simp [hne]
      have hright : onePass (fun j x => if j ∈ k :: keys then chunk j x else [x]) (k + 1)
          (xs.drop k) = xs.drop k := by
        refine (onePass_congr ?_).trans (onePass_singleton (k + 1) (xs.drop k))
        intro j x hj _
        have hnot : j ∉ k :: keys := by
          intro hmem
          rcases mem_cons.mp hmem with rfl | hmem
          · omega
          · have := hbelow j hmem
            omega
        simp [hnot]
      rw [hleft, hright]
      simp only [append_assoc]
    · intro j hj
      have := hbelow j hj
      have := (hrange j (by simp [hj])).1
      omega

/-- Splicing the chunks of some lines from the last one up is one pass over all lines, for chunks
that leave the other lines as they are. -/
theorem foldl_splice_eq_onePass (d : α) (keys : List Nat) (xs : List α)
    (hsorted : keys.Pairwise (· > ·)) (hrange : ∀ k ∈ keys, 1 ≤ k ∧ k ≤ xs.length)
    (hother : ∀ k x, k ∉ keys → chunk k x = [x]) :
    keys.foldl (fun acc k => splice acc (k - 1) 1 (chunk k (acc.getD (k - 1) d))) xs = onePass chunk 1 xs := by
  have h := foldl_splice_append chunk d keys xs [] hsorted hrange
  rw [append_nil, append_nil] at h
  rw [h]
  apply onePass_congr
  intro k x _ _
  split
  · rfl
  · next hk => rw [hother k x hk]

theorem onePass_eq_flatMap (d : α) (start : Nat) (xs : List α) : onePass chunk start xs =
      (List.range' start xs.length).flatMap fun k => chunk k (xs.getD (k - start) d) := by
  induction xs generalizing start with
  | nil => simp [onePass]
  | cons x xs ih =>
    rw [onePass, ih, length_cons, List.range'_succ, flatMap_cons, Nat.sub_self, getD_cons_zero]
    congr 1
    apply flatMap_congr
    intro k hk
    obtain ⟨hle, -⟩ := mem_range'_1.mp hk
    rw [show k - start = k - (start + 1) + 1 by omega, getD_cons_succ]

/-- One concatenation is part of another if its pieces are, those of a longest run of indices with
`p` taken together. -/
theorem flatMap_sublist_of_stretches {f g : Nat → List α} {p : Nat → Bool} {s n}
    (hout : ∀ k, p k = false → (f k).Sublist (g k))
    (hin : ∀ t m, s ≤ t → t + m ≤ s + n → (∀ k ∈ List.range' t m, p k = true) → p (t - 1) = false →
      p (t + m) = false → ((List.range' t m).flatMap f).Sublist ((List.range' t m).flatMap g))
    (hstart : p (s - 1) = false) (hend : p (s + n) = false) :
    ((List.range' s n).flatMap f).Sublist ((List.range' s n).flatMap g) := by
  induction n using Nat.strong_induction_on generalizing s with
  | _ n ih =>
    -- the run that starts here, which may be empty
    have hex : ∃ m, p (s + m) = false := ⟨n, hend⟩
    have hle : Nat.find hex ≤ n := Nat.find_min' hex hend
    have hrun : ∀ k ∈ List.range' s (Nat.find hex), p k = true := by
      intro k hk
      obtain ⟨hsk, hlt⟩ := mem_range'_1.mp hk
      have hmin := Nat.find_min hex (m := k - s) (by omega)
      rwa [Nat.add_sub_cancel' hsk, Bool.not_eq_false] at hmin
    have hstop : p (s + Nat.find hex) = false := Nat.find_spec hex
    generalize Nat.find hex = m at hle hrun hstop
    have hfirst := hin s m le_rfl (by omega) hrun hstart hstop
    rcases Nat.lt_or_eq_of_le hle with hlt | rfl
    · have hsplit : List.range' s n = List.range' s m ++ (s + m) :: List.range' (s + m + 1) (n - m - 1) := by
        rw [← List.range'_succ, List.range'_append_1]
        congr 1
        omega
      have hrest := ih (n - m - 1) (by omega) (s := s + m + 1)
        (fun t k ht hk => hin t k (by omega) (by omega)) hstop (by rwa [show s + m + 1 + (n - m - 1) = s + n by omega])
      rw [hsplit, flatMap_append, flatMap_append, flatMap_cons, flatMap_cons]
      exact hfirst.append ((hout _ hstop).append hrest)
    · exact hfirst

end GajaeCode.Text
