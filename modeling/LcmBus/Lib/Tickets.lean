import Mathlib.Data.List.Nodup
import Mathlib.Data.List.Range

/-!
# A line of tickets

A counter hands out tickets, and those who have one stand in a line.  The one in front is let in, and
any one may leave the line.

* `Tickets line admitted left next`: what holds of the line, of the tickets let in and of those that
  left, where `next` is the ticket to be handed out;
* `Tickets.enter`, `Tickets.serve`, `Tickets.leave`: the three moves keep it;
* `Tickets.of_lt`: whoever is in front has nobody before him.
-/

/-- The tickets handed out so far are those let in, those in the line and those that left; those let in
and behind them the line are in the order they were handed out. -/
structure Tickets (line admitted left : List ℕ) (next : ℕ) : Prop where
  sorted : (admitted ++ line).Pairwise (· < ·)
  perm : (admitted ++ line ++ left).Perm (List.range next)

namespace Tickets

variable {line admitted left : List ℕ} {next ticket : ℕ}

theorem new : Tickets [] [] [] 0 := ⟨.nil, .refl _⟩

theorem lt_next (h : Tickets line admitted left next) (hmem : ticket ∈ admitted ++ line) :
    ticket < next :=
  List.mem_range.1 (h.perm.subset (List.mem_append_left _ hmem))

theorem line_sorted (h : Tickets line admitted left next) : line.Pairwise (· < ·) :=
  h.sorted.sublist (List.sublist_append_right _ _)

theorem admitted_sorted (h : Tickets line admitted left next) : admitted.Pairwise (· < ·) :=
  h.sorted.sublist (List.sublist_append_left _ _)

/-- Whoever comes stands at the end. -/
theorem enter (h : Tickets line admitted left next) :
    Tickets (line ++ [next]) admitted left (next + 1) := by
  constructor
  · rw [← List.append_assoc]
    refine List.pairwise_append.2 ⟨h.sorted, List.pairwise_singleton _ _, fun ticket hmem last hlast => ?_⟩
    rw [List.mem_singleton.1 hlast]
    exact h.lt_next hmem
  · rw [List.range_succ, ← List.append_assoc, List.append_assoc (admitted ++ line)]
    refine (List.Perm.append_left _ List.perm_append_comm).trans ?_
    rw [← List.append_assoc]
    exact h.perm.append_right _

/-- The one in front is let in. -/
theorem serve (h : Tickets (ticket :: line) admitted left next) :
    Tickets line (admitted ++ [ticket]) left next := by
  have hsplit : admitted ++ [ticket] ++ line = admitted ++ ticket :: line := List.append_cons .. |>.symm
  exact ⟨hsplit ▸ h.sorted, hsplit ▸ h.perm⟩

/-- Whoever leaves makes no room for anyone out of turn. -/
theorem leave (h : Tickets line admitted left next) (hmem : ticket ∈ line) :
    Tickets (line.filter (· ≠ ticket)) admitted (left ++ [ticket]) next := by
  have hnodup : line.Nodup := h.line_sorted.imp fun hlt => hlt.ne
  have herase : (line.filter (· ≠ ticket) ++ [ticket]).Perm line := by
    refine (List.perm_ext_iff_of_nodup ?_ hnodup).2 fun other => ?_
    · exact List.nodup_append.2 ⟨hnodup.filter _, List.nodup_singleton _, by simp⟩
    · by_cases hother : other = ticket <;> simp [hother, hmem]
  refine ⟨h.sorted.sublist ((List.Sublist.refl _).append (List.filter_sublist ..)), ?_⟩
  refine .trans ?_ h.perm
  rw [← List.append_assoc, List.append_assoc admitted, List.append_assoc admitted,
    List.append_assoc admitted]
  refine .append_left _ (.trans ?_ (herase.append_right left))
  rw [List.append_assoc, List.append_assoc]
  exact .append_left _ List.perm_append_comm

/-- Before the one in front, all were let in or left. -/
theorem of_lt (h : Tickets (ticket :: line) admitted left next) {earlier : ℕ} (hlt : earlier < ticket) :
    earlier ∈ admitted ∨ earlier ∈ left := by
  have hnext : ticket < next := h.lt_next (by simp)
  have hmem := h.perm.mem_iff.2 (List.mem_range.2 (hlt.trans hnext))
  rw [List.mem_append, List.mem_append] at hmem
  rcases hmem with (hin | hline) | hleft
  · exact .inl hin
  · rcases List.mem_cons.1 hline with rfl | hbehind
    · exact absurd hlt (lt_irrefl _)
    · exact absurd hlt (List.rel_of_pairwise_cons h.line_sorted hbehind).asymm
  · exact .inr hleft

end Tickets
