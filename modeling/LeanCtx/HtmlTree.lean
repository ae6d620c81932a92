import LeanCtx.HtmlTokens

/-!
# The tree of a page

Open elements are kept on a stack over an artificial root. A close tag closes
the innermost element of its name with all that is open in it. Where the code
expects an element on the stack, nothing is returned when there is none.
-/

namespace LeanCtx.HtmlCrush

inductive HtmlNodeChild
  | element (tag : Text) (attrs : Attrs) (children : List HtmlNodeChild)
  | text (text : Text)

/-- An element, open on the stack or found in the tree. -/
structure HtmlNode where
  tag : Text
  attrs : Attrs
  children : List HtmlNodeChild

def HtmlNode.child (node : HtmlNode) : HtmlNodeChild :=
  .element node.tag node.attrs node.children

/-- Induction over a tree: the children of an element come before it. -/
@[elab_as_elim]
theorem HtmlNodeChild.tree_induction {motive : HtmlNodeChild → Prop}
    (text : ∀ t, motive (.text t))
    (element : ∀ tag attrs children, (∀ c ∈ children, motive c) →
      motive (.element tag attrs children))
    (node : HtmlNodeChild) : motive node :=
  @HtmlNodeChild.rec motive (fun children => ∀ c ∈ children, motive c) element text nofun
    (fun _ _ hc hrest => List.forall_mem_cons.mpr ⟨hc, hrest⟩) node

def isVoidElement (name : Text) : Bool :=
  ["area", "base", "br", "col", "embed", "hr", "img", "input", "link", "meta", "param", "source",
    "track", "wbr"].contains (String.ofList name)

/-- `parent.children.push(..)`, if there is a parent. -/
def addChild (child : HtmlNodeChild) : List HtmlNode → List HtmlNode
  | [] => []
  | parent :: below => { parent with children := parent.children ++ [child] } :: below

/-- The innermost element, which is expected, becomes a child of the next one. -/
def closeTop : List HtmlNode → Option (List HtmlNode)
  | [] => none
  | node :: below => some (addChild node.child below)

def closeTimes : ℕ → List HtmlNode → Option (List HtmlNode)
  | 0, stack => some stack
  | n + 1, stack => (closeTop stack).bind (closeTimes n)

/-- The stack, innermost element first, after a token. -/
def takeToken (stack : List HtmlNode) : HtmlToken → Option (List HtmlNode)
  | .openTag name attrs selfClosing =>
    if selfClosing || isVoidElement name then some (addChild (.element name attrs []) stack)
    else some (⟨name, attrs, []⟩ :: stack)
  | .closeTag name =>
    match stack.findIdx? (·.tag == name) with
    | some above => closeTimes (above + 1) stack
    | none => some stack
  | .text text =>
    if (Knowledge.trim text).isEmpty then some stack else some (addChild (.text text) stack)

def takeTokens : List HtmlNode → List HtmlToken → Option (List HtmlNode)
  | stack, [] => some stack
  | stack, token :: rest => (takeToken stack token).bind fun stack => takeTokens stack rest

def rootNode : HtmlNode := ⟨"root".toList, [], []⟩

def buildTree (tokens : List HtmlToken) : Option (List HtmlNodeChild) :=
  (takeTokens [rootNode] tokens).bind fun stack =>
    (closeTimes (stack.length - 1) stack).map fun stack =>
      (stack.head?.map HtmlNode.children).getD []

/-! ## Trees are always built -/

theorem length_addChild (child : HtmlNodeChild) (stack : List HtmlNode) :
    (addChild child stack).length = stack.length := by
  cases stack <;> rfl

theorem closeTimes_isSome {n : ℕ} {stack : List HtmlNode} (h : n ≤ stack.length) :
    (closeTimes n stack).isSome := by
  induction n generalizing stack with
  | zero => rfl
  | succ n ih =>
    cases stack with
    | nil => exact absurd h (Nat.not_succ_le_zero n)
    | cons node below =>
      refine ih ?_
      rw [length_addChild]
      exact Nat.le_of_succ_le_succ h

theorem takeToken_isSome (stack : List HtmlNode) (token : HtmlToken) :
    (takeToken stack token).isSome := by
  cases token with
  | openTag name attrs selfClosing =>
    rw [takeToken]
    split_ifs <;> rfl
  | closeTag name =>
    rw [takeToken]
    split
    · rename_i above h
      exact closeTimes_isSome (List.findIdx?_eq_some_iff_getElem.mp h).1
    · rfl
  | text text =>
    rw [takeToken]
    split_ifs <;> rfl

theorem takeTokens_isSome (stack : List HtmlNode) (tokens : List HtmlToken) :
    (takeTokens stack tokens).isSome := by
  induction tokens generalizing stack with
  | nil => rfl
  | cons token rest ih =>
    obtain ⟨next, hnext⟩ := Option.isSome_iff_exists.mp (takeToken_isSome stack token)
    rw [takeTokens, hnext]
    exact ih next

/-- An element is on the stack wherever one is expected. -/
theorem buildTree_isSome (tokens : List HtmlToken) : (buildTree tokens).isSome := by
  obtain ⟨stack, hstack⟩ := Option.isSome_iff_exists.mp (takeTokens_isSome [rootNode] tokens)
  rw [buildTree, hstack, Option.bind_some, Option.isSome_map]
  exact closeTimes_isSome (Nat.sub_le _ _)

end LeanCtx.HtmlCrush
