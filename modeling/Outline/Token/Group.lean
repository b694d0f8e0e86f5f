import Outline.Token.Basic

/-!
# Runs of tokens

The text of a run of sibling tokens, and the groups of a list that is separated by commas.
-/

namespace Outline.TokenTree

/-- The text of a run of tokens that follows a token which ends at the given offset: tokens that
touch are joined, others have a space between them. -/
def joinedFrom (stop : Nat) : List TokenTree → String
  | [] => ""
  | t :: ts =>
    (if stop < t.span.offset then " " else "") ++ t.text ++ joinedFrom t.span.stop ts

/-- The text of a run of tokens: tokens that touch are joined, others have a space between
them. -/
def joined : List TokenTree → String
  | [] => ""
  | t :: ts => t.text ++ joinedFrom t.span.stop ts

/-- The groups between commas, the first of which starts with the tokens `group`; comments are
left out. -/
def commaGroupsFrom (group : List TokenTree) : List TokenTree → List (List TokenTree)
  | [] => [group]
  | t :: ts =>
    if t.value.isSeparator "," then group :: commaGroupsFrom [] ts
    else if t.kind == .comment then commaGroupsFrom group ts
    else commaGroupsFrom (group ++ [t]) ts

/-- The groups of tokens between commas without the empty ones; comments are left out. -/
def commaGroups (ts : List TokenTree) : List (List TokenTree) :=
  (commaGroupsFrom [] ts).filter (!·.isEmpty)

end Outline.TokenTree
