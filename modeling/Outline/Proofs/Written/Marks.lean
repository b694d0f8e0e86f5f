import Outline.Proofs.Written.Leads
import Outline.Proofs.Written.Parameters

/-!
# Reading comments and annotations

The machines that read comments and annotations read what stands in front of a declaration, and
find nothing in the declaration itself.  An annotation without arguments ends only at the token
behind it.

* `Extractor.Holds` — what the machine that reads annotations has still to end.
* `Extractor.annotation_leads`, `Extractor.comment_leads` — what is read in front of a declaration.
-/

namespace Outline

namespace Extractor

variable {o : Owner} {t : TokenTree}

/-! ## The machine that reads annotations -/

/-- What the machine that reads annotations has still to end. -/
def Holds (l : Language) (a : AnnotationMachine) (as : List Annotation) : Prop :=
  a = .idle ∧ as = [] ∨ l.annotationStyle = .atSign ∧ ∃ n, a = .arguments n ∧ as = [⟨n, []⟩]

/-- A token in which the machine finds nothing. -/
structure Silent (t : TokenTree) : Prop where
  /-- It is no comment. -/
  notComment : t.kind ≠ .comment
  /-- It is no at sign. -/
  notSign : t.value.isSeparator "@" = false
  /-- It is no block in square brackets. -/
  notBrackets : t.value.isBlock '[' = false

/-- The end of annotations makes them wait. -/
theorem deliver_annotations (found : List Annotation) (h : Harvest) :
    [annotations (.complete found)].foldl (deliver o) h = h.wait found [] := by
  simp [deliver, Harvest.wait]

theorem annotation_accept {a : AnnotationMachine} {s : Step AnnotationMachine}
    (hs : a.accept o.language t = s) : (annotations a).accept o t = s.map annotations := by
  rw [accept, hs]

theorem annotation_silent (ht : Silent t) :
    respond o t (annotations .idle) = ⟨annotations .idle, [], false⟩ := by
  have hcomment : (t.kind == .comment) = false := beq_eq_false_iff_ne.2 ht.notComment
  have hs : AnnotationMachine.accept o.language .idle t = .leave .idle := by
    unfold AnnotationMachine.accept
    rw [hcomment, if_neg Bool.false_ne_true]
    cases o.language.annotationStyle with
    | bracketed => simp [ht.notBrackets]
    | atSign => simp [ht.notSign]
  exact respond_of_going (annotation_accept hs) rfl rfl

/-- Behind the name of an annotation, a token that is no block in parentheses ends it. -/
theorem annotation_behind {n : String} (hstyle : o.language.annotationStyle = .atSign)
    (hcomment : t.kind ≠ .comment) (hparen : t.value.isBlock '(' = false) :
    respond o t (annotations (.arguments n)) = { respond o t (annotations .idle) with
      ended := annotations (.complete [⟨n, []⟩]) :: (respond o t (annotations .idle)).ended } := by
  have hcomment : (t.kind == .comment) = false := beq_eq_false_iff_ne.2 hcomment
  have hs : AnnotationMachine.accept o.language (.arguments n) t =
      .leave (.complete [⟨n, []⟩]) := by
    simp [AnnotationMachine.accept, hcomment, hstyle, hparen]
  refine respond_of_left_complete (annotation_accept hs) rfl rfl rfl rfl ?_
  rw [show (Step.leave (AnnotationMachine.complete [⟨n, []⟩])).map annotations =
    .leave (annotations (.complete [⟨n, []⟩])) from rfl]
  simp only [Step.leave, reset, accept, AnnotationMachine.accept, hcomment, hstyle,
    Bool.false_eq_true, if_false]
  split <;> rfl

/-- A silent token ends what the machine holds. -/
theorem annotation_word {a : AnnotationMachine} {as : List Annotation} (ha : Holds o.language a as)
    (ht : Silent t) (hparen : t.value.isBlock '(' = false) :
    Feeds o (annotations a) [t] as [] (annotations .idle) := by
  rcases ha with ⟨rfl, rfl⟩ | ⟨hstyle, n, rfl, rfl⟩
  · exact Passes.one (annotation_silent ht)
  · have hstep := annotation_behind (n := n) hstyle ht.notComment hparen
    rw [annotation_silent ht] at hstep
    exact Feeds.cons hstep (deliver_annotations _) (.nil _)

/-- Silent tokens are passed over. -/
theorem annotation_run {ts : List TokenTree} (h : ∀ t ∈ ts, Silent t) :
    Passes o (annotations .idle) ts (annotations .idle) := by
  induction ts with
  | nil => exact .nil _
  | cons t ts ih =>
      have hstep := annotation_silent (o := o) (h t List.mem_cons_self)
      exact Passes.cons hstep (ih fun t ht => h t (List.mem_cons_of_mem _ ht))

/-- An at sign ends what the machine holds and starts an annotation. -/
theorem annotation_sign {a : AnnotationMachine} {as : List Annotation}
    (ha : Holds o.language a as) (hstyle : o.language.annotationStyle = .atSign)
    (h : t.value.isSeparator "@" = true) :
    Feeds o (annotations a) [t] as [] (annotations .name) := by
  have hcomment := kind_ne_of_isSeparator h
  have hsign : respond o t (annotations .idle) = ⟨annotations .name, [], true⟩ := by
    have hcomment : (t.kind == .comment) = false := beq_eq_false_iff_ne.2 hcomment
    have hs : AnnotationMachine.accept o.language .idle t = .take .name := by
      simp [AnnotationMachine.accept, hcomment, hstyle, h]
    exact respond_of_going (annotation_accept hs) rfl rfl
  rcases ha with ⟨rfl, rfl⟩ | ⟨-, n, rfl, rfl⟩
  · exact Passes.one hsign
  · have hkind := Token.kind_of_isSeparator h
    have hstep := annotation_behind (n := n) hstyle hcomment
      (Token.isBlock_eq_false (by rw [hkind]; decide) '(')
    rw [hsign] at hstep
    exact Feeds.cons hstep (deliver_annotations _) (.nil _)

/-- The name of an annotation. -/
theorem annotation_name (hstyle : o.language.annotationStyle = .atSign)
    (h : t.kind = .identifier) :
    Passes o (annotations .name) [t] (annotations (.arguments t.text)) := by
  have hs : AnnotationMachine.accept o.language .name t = .take (.arguments t.text) := by
    simp [AnnotationMachine.accept, hstyle, h]
  exact .one (respond_of_going (annotation_accept hs) rfl rfl)

/-- The arguments of an annotation. -/
theorem annotation_arguments {n : String} (hstyle : o.language.annotationStyle = .atSign)
    (h : t.value.isBlock '(' = true) :
    Feeds o (annotations (.arguments n)) [t] [⟨n, Annotation.argumentsOf t⟩] []
      (annotations .idle) := by
  have hcomment : (t.kind == .comment) = false := beq_eq_false_iff_ne.2 (kind_ne_of_isBlock h)
  have hs : AnnotationMachine.accept o.language (.arguments n) t =
      .take (.complete [⟨n, Annotation.argumentsOf t⟩]) := by
    simp [AnnotationMachine.accept, hcomment, hstyle, h]
  exact Feeds.cons (respond_of_taken_complete (annotation_accept hs) rfl rfl rfl)
    (deliver_annotations _) (.nil _)

/-- Annotations in square brackets. -/
theorem annotation_brackets {found : List Annotation}
    (hstyle : o.language.annotationStyle = .bracketed) (h : t.value.isBlock '[' = true)
    (hread : Annotation.ofBrackets t = found) (hfound : found ≠ []) :
    Feeds o (annotations .idle) [t] found [] (annotations .idle) := by
  have hcomment : (t.kind == .comment) = false := beq_eq_false_iff_ne.2 (kind_ne_of_isBlock h)
  have hs : AnnotationMachine.accept o.language .idle t = .take (.complete found) := by
    simp [AnnotationMachine.accept, hcomment, hstyle, h, hread, hfound]
  have hfeeds : Feeds o (annotations .idle) [t] (found ++ []) [] (annotations .idle) :=
    Feeds.cons (respond_of_taken_complete (annotation_accept hs) rfl rfl rfl)
      (deliver_annotations _) (.nil _)
  rwa [List.append_nil] at hfeeds

/-- What stands in front of a declaration: what the machine held and what it holds then are its
annotations. -/
theorem annotation_lead {a : AnnotationMachine} {as : List Annotation}
    (ha : Holds o.language a as) (lead : WrittenLead o.language) :
    ∃ a' as' read, Feeds o (annotations a) lead.tokens read [] (annotations a') ∧
      Holds o.language a' as' ∧ read ++ as' = as ++ lead.annotations := by
  cases lead with
  | comment token isComment =>
      have hgoing : (annotations a).isFailed = false ∧ (annotations a).isComplete = false := by
        rcases ha with ⟨rfl, -⟩ | ⟨-, n, rfl, -⟩ <;> exact ⟨rfl, rfl⟩
      have hleaves :=
        comment_leaves (o := o) isComment (Or.inr (Or.inr ⟨a, rfl⟩)) hgoing.1 hgoing.2
      exact ⟨a, as, [], Passes.one hleaves, ha, by simp [WrittenLead.annotations]⟩
  | mark mark =>
      cases mark with
      | brackets block hstyle isBlock found =>
          rcases ha with ⟨rfl, rfl⟩ | ⟨hsign, -⟩
          · exact ⟨.idle, [], _, annotation_brackets hstyle isBlock rfl found, Or.inl ⟨rfl, rfl⟩,
              List.append_nil _⟩
          · exact absurd (hstyle.symm.trans hsign) (by decide)
      | sign start name arguments? hstyle hstart hname hblock =>
          have hopen := (annotation_sign ha hstyle hstart).append (annotation_name hstyle hname)
          rw [List.append_nil] at hopen
          cases arguments? with
          | none =>
              exact ⟨_, _, _, hopen, Or.inr ⟨hstyle, _, rfl, rfl⟩, rfl⟩
          | some b =>
              exact ⟨.idle, [], _, hopen.append (annotation_arguments hstyle (hblock b rfl)),
                Or.inl ⟨rfl, rfl⟩, List.append_nil _⟩

theorem annotation_leads {a : AnnotationMachine} {as : List Annotation}
    (ha : Holds o.language a as) (leads : List (WrittenLead o.language)) :
    ∃ a' as' read, Feeds o (annotations a) (leads.flatMap (·.tokens)) read [] (annotations a') ∧
      Holds o.language a' as' ∧ read ++ as' = as ++ leads.flatMap (·.annotations) := by
  induction leads generalizing a as with
  | nil => exact ⟨a, as, [], .nil _, ha, by simp⟩
  | cons lead leads ih =>
      obtain ⟨a', as', read, hfeeds, ha', hread⟩ := annotation_lead ha lead
      obtain ⟨last, held, read', hrest, hlast, hread'⟩ := ih ha'
      refine ⟨last, held, read ++ read', hfeeds.append hrest, hlast, ?_⟩
      rw [List.append_assoc, hread', ← List.append_assoc, hread, List.flatMap_cons,
        List.append_assoc]

/-! ## The machine that reads comments -/

/-- Tokens without comments are passed over. -/
theorem comment_run {ts : List TokenTree} (h : ∀ t ∈ ts, t.kind ≠ .comment) :
    Passes o (comment none) ts (comment none) := by
  induction ts with
  | nil => exact .nil _
  | cons t ts ih =>
      have hstep := comment_passes (o := o) (h t List.mem_cons_self)
      exact Passes.cons hstep (ih fun t ht => h t (List.mem_cons_of_mem _ ht))

theorem comment_lead (lead : WrittenLead o.language) :
    Feeds o (comment none) lead.tokens [] lead.comments (comment none) := by
  cases lead with
  | comment token isComment =>
      have hwait : ∀ h, [comment (some (Text.commentText token.text))].foldl (deliver o) h =
          h.wait [] [Text.commentText token.text] := by
        intro h
        simp [deliver, Harvest.wait]
      exact Feeds.cons (comment_reads isComment) hwait (.nil _)
  | mark mark =>
      refine comment_run fun t ht => ?_
      exact (mark.inside ht).2

theorem comment_leads (leads : List (WrittenLead o.language)) :
    Feeds o (comment none) (leads.flatMap (·.tokens)) [] (leads.flatMap (·.comments))
      (comment none) := by
  induction leads with
  | nil => exact .nil _
  | cons lead leads ih => exact (comment_lead lead).append ih

end Extractor

end Outline
