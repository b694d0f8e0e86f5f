import Outline.Proofs.Token.Growth
import Outline.Proofs.Tree.Built

/-!
# Token trees that hang together

The tree of a text comes about by adding tokens and by moving them below blocks, so that all of its
tokens lie below the document.

* `TokenTree.growFrom_keeps` — what the end of a block and the reading of a token keep is kept by
  the whole walk over a text.
* `TokenTree.built_of_grow` — the tree of a text, grown in place, is built if there is a name for
  each of its entries.
* `TokenTree.exists_rooted_of_read` — the tree of a text hangs together.
-/

namespace Outline

namespace TokenTree

variable {t : Tree Token}

/-- The end of a block adds an entry and moves children below it. -/
theorem built_growBlock (source : Source) (h : t.Built) (room : t.size < Tree.width)
    (start stop : Nat) : (growBlock source t start stop).Built := by
  have hpos : 0 < t.size := Grown.size_pos t
  refine (h.push room hpos _).adopt ?_ _
  rw [Tree.children_push t _ hpos, if_pos rfl]
  exact List.mem_append_right _ (List.mem_singleton.2 rfl)

/-- What the end of a block and the reading of a token keep is kept by the whole walk. -/
theorem growFrom_keeps {P : Tree Token → Prop} {l : Language} {rules : RuleSet} {source : Source}
    (hblock : ∀ t start stop, P t → P (growBlock source t start stop))
    (hleaf : ∀ t token, P t → P (t.push 0 token))
    {outer : List OpenBracket} {pos : Nat} {cs : List Char} {t' : Tree Token}
    (h : growFrom l rules source outer t pos cs = .ok t') (ht : P t) : P t' := by
  induction hlen : cs.length using Nat.strongRecOn generalizing outer t pos cs with
  | ind n ih =>
      subst hlen
      cases cs with
      | nil =>
          cases outer <;> rw [growFrom] at h <;> cases h
          exact ht
      | cons c cs =>
          cases hc : outer.head?.any (·.closing == c) with
          | true =>
              obtain ⟨b, outer, rfl⟩ : ∃ b bs, outer = b :: bs :=
                List.exists_cons_of_ne_nil (by rintro rfl; cases hc)
              obtain rfl := beq_iff_eq.1 hc
              rw [growFrom_close] at h
              exact ih _ (Nat.lt_succ_self _) h (hblock _ _ _ ht) rfl
          | false =>
              rw [growFrom_other t pos cs hc] at h
              split at h
              · cases h
              split at h
              · cases h
              · exact ih _ (Nat.lt_succ_self _) h ht rfl
              · refine ih _ ?_ h ?_ rfl
                · rw [List.length_drop, List.length_cons]
                  omega
                · split
                  · exact hleaf _ _ ht
                  · exact ht

/-- The tree of a text, grown in place, comes about by adding and moving. -/
theorem built_of_grow {d : Dialect} {text : String} (h : grow d text = .ok t)
    (hnames : t.size ≤ Tree.width) : t.Built := by
  refine growFrom_keeps (P := fun t => t.size ≤ Tree.width → t.Built) ?_ ?_ h
    (fun _ => .singleton _) hnames
  · intro t start stop ht hsize
    rw [size_growBlock] at hsize
    exact built_growBlock _ (ht (Nat.le_of_succ_le hsize)) hsize start stop
  · intro t token ht hsize
    rw [Tree.size_push] at hsize
    exact (ht (Nat.le_of_succ_le hsize)).push hsize (Grown.size_pos t) token

/-- A text that is read is also grown in place, into a tree with as many entries.  With a name for
each of them it is a tree of the same nested form that hangs together. -/
theorem exists_rooted_of_read {d : Dialect} {text : String} {document : TokenTree}
    (h : read d text = .ok document) : ∃ t, grow d text = .ok t ∧ t.size = document.size ∧
      (document.size ≤ Tree.width → t.Linked ∧ t.Rooted ∧ t.toRose? = some document) := by
  obtain ⟨t, hgrow, hsize, hheld⟩ := exists_grow_of_read h
  refine ⟨t, hgrow, hsize, fun hnames => ?_⟩
  obtain ⟨hrose, hlinked⟩ := hheld hnames
  exact ⟨hlinked, (built_of_grow hgrow (hsize.le.trans hnames)).rooted, hrose⟩

end TokenTree

end Outline
