import LeanCtx.HtmlTree
import LeanCtx.TextFile

/-!
# The article of a page

The main content is chosen in the tree and written as markdown. The depth of
lists is counted up and down in checked steps, and a long article is cut at a
character boundary.
-/

namespace LeanCtx.HtmlCrush

open Knowledge (len sliceTo trim splitWhitespace sliceTo_isSome isCharBoundary_len)

/-! ## Searching the tree -/

section FindFirst

variable {α : Type} (f : HtmlNode → Option α)

mutual

/-- The first element, outer ones before inner ones, at which something is found. -/
def findFirst : List HtmlNodeChild → Option α
  | [] => none
  | child :: rest => (findFirstAt child).or (findFirst rest)

def findFirstAt : HtmlNodeChild → Option α
  | .text _ => none
  | .element tag attrs children => (f ⟨tag, attrs, children⟩).or (findFirst children)

end

end FindFirst

namespace HtmlNode

/-- The value of the attribute that has exactly this name. -/
def attr (el : HtmlNode) (name : String) : Option Text :=
  (el.attrs.find? fun e => e.1 = name.toList).map Prod.snd

def attributeOf (el : HtmlNode) (name : String) : Option Text :=
  (el.attrs.find? fun e => toAsciiLowercase e.1 = toAsciiLowercase name.toList).map Prod.snd

def classes (el : HtmlNode) : List Text := splitWhitespace ((el.attr "class").getD [])

end HtmlNode

def findElementByTagOrRole (tag role : String) : List HtmlNodeChild → Option HtmlNode :=
  findFirst fun el =>
    if el.tag = tag.toList then some el
    else if role ≠ "" ∧ el.attrs.any (fun e => e.1 = "role".toList ∧ e.2 = role.toList) then some el
    else none

def findElementByTag (tag : String) : List HtmlNodeChild → Option HtmlNode :=
  findFirst fun el => if el.tag = tag.toList then some el else none

def findElementByIdClass (candidates : List String) : List HtmlNodeChild → Option HtmlNode :=
  findFirst fun el =>
    if candidates.any fun c =>
      (el.attr "id").getD [] = c.toList ∨ el.classes.any fun cls => cls = c.toList then some el
    else none

def boilerplateTags : List String := ["nav", "footer", "header", "aside", "menu", "menuitem"]

def boilerplateRoles : List String :=
  ["navigation", "banner", "contentinfo", "complementary", "menu"]

def boilerplateClasses : List String :=
  ["nav", "navbar", "footer", "sidebar", "menu", "cookie", "banner", "advertisement", "ad",
    "social", "share", "comment", "related"]

def isBoilerplate (el : HtmlNode) : Bool :=
  boilerplateTags.contains (String.ofList el.tag) ||
    boilerplateRoles.contains (String.ofList ((el.attr "role").getD [])) ||
    boilerplateClasses.any fun bc => el.classes.any fun cls => TextSearch.contains bc.toList cls

def filterBoilerplate (nodes : List HtmlNodeChild) : List HtmlNodeChild :=
  nodes.filter fun
    | .element tag attrs children => !isBoilerplate ⟨tag, attrs, children⟩
    | .text _ => true

def selectMainContent (nodes : List HtmlNodeChild) : List HtmlNodeChild :=
  match findElementByTagOrRole "main" "main" nodes, findElementByTagOrRole "article" "" nodes,
    findElementByIdClass
      ["content", "main-content", "post-content", "entry-content", "article-body"] nodes,
    findElementByTag "body" nodes with
  | some main, _, _, _ => main.children
  | none, some article, _, _ => article.children
  | none, none, some content, _ => content.children
  | none, none, none, some body => filterBoilerplate body.children
  | none, none, none, none => filterBoilerplate nodes

/-! ## Texts of the tree -/

mutual

def rawText : List HtmlNodeChild → Text
  | [] => []
  | child :: rest => rawTextAt child ++ rawText rest

def rawTextAt : HtmlNodeChild → Text
  | .text text => text
  | .element _ _ children => rawText children

end

/-- A run of white space becomes one space. -/
def normalizeFrom (lastWasSpace : Bool) : Text → Text
  | [] => []
  | ch :: rest =>
    if isAsciiWhitespace ch then
      if lastWasSpace then normalizeFrom true rest else ' ' :: normalizeFrom true rest
    else ch :: normalizeFrom false rest

def normalizeWhitespace (text : Text) : Text := normalizeFrom false text

def nodeText (nodes : List HtmlNodeChild) : Text := trim (normalizeWhitespace (rawText nodes))

def nonEmpty (text : Text) : Option Text := if text.isEmpty then none else some text

structure ArticleMeta where
  author : Option Text
  date : Option Text
  url : Option Text

def findMetaValue (names : List String) : List HtmlNodeChild → Option Text :=
  findFirst fun el =>
    if el.tag = "meta".toList then
      (el.attributeOf "content").bind fun value =>
        if trim value ≠ [] ∧ names.any fun name =>
          ((el.attributeOf "name").or (el.attributeOf "property")).any fun actual =>
            toAsciiLowercase actual = toAsciiLowercase name.toList then some (trim value)
        else none
    else none

def findCanonicalUrl : List HtmlNodeChild → Option Text :=
  findFirst fun el =>
    if el.tag = "link".toList ∧ (el.attributeOf "rel").any fun rel =>
      (splitWhitespace rel).any fun v => toAsciiLowercase v = "canonical".toList then
      (el.attributeOf "href").bind fun href => nonEmpty (trim href)
    else none

def extractMetadata (nodes article : List HtmlNodeChild) : Option Text × ArticleMeta :=
  let title := ((findElementByTag "title" nodes).bind fun el => nonEmpty (nodeText el.children)).or
    ((findElementByTag "h1" article).bind fun el => nonEmpty (nodeText el.children))
  let date := (findMetaValue ["date", "article:published_time", "article:modified_time", "pubdate"]
    nodes).or ((findElementByTag "time" nodes).bind fun el =>
      (el.attributeOf "datetime").or (nonEmpty (nodeText el.children)))
  (title,
    { author := findMetaValue ["author", "article:author"] nodes
      date
      url := (findMetaValue ["og:url", "twitter:url", "url"] nodes).or (findCanonicalUrl nodes) })

/-! ## Code -/

structure CodeBlock where
  language : Text
  content : Text

def codeLanguages : List String :=
  ["rust", "python", "javascript", "typescript", "go", "java", "c", "cpp", "ruby", "bash", "sh",
    "json", "yaml", "toml", "sql", "html", "css"]

def codeLanguage (el : HtmlNode) : Text :=
  ((splitWhitespace ((el.attributeOf "class").getD [])).findSome? fun cls =>
    if "language-".toList.isPrefixOf cls then some (cls.drop 9)
    else if "lang-".toList.isPrefixOf cls then some (cls.drop 5)
    else if codeLanguages.contains (String.ofList cls) then some cls
    else none).getD []

def detectCodeLanguage (pre : HtmlNode) : Text :=
  (pre.children.findSome? fun
    | .element tag attrs children =>
      if tag = "code".toList then nonEmpty (codeLanguage ⟨tag, attrs, children⟩) else none
    | .text _ => none).getD (codeLanguage pre)

mutual

def collectCodeBlocks : List HtmlNodeChild → List CodeBlock
  | [] => []
  | child :: rest => codeBlocksAt child ++ collectCodeBlocks rest

def codeBlocksAt : HtmlNodeChild → List CodeBlock
  | .text _ => []
  | .element tag attrs children =>
    match String.ofList tag with
    | "pre" => [⟨detectCodeLanguage ⟨tag, attrs, children⟩, rawText children⟩]
    | "code" =>
      ⟨codeLanguage ⟨tag, attrs, children⟩, rawText children⟩ :: collectCodeBlocks children
    | _ => collectCodeBlocks children

end

/-! ## Markdown -/

structure RenderState where
  listDepth : ℕ := 0
  /-- The numbers of the open ordered lists, innermost first. -/
  orderedCounter : List ℕ := []
  inPre : Bool := false

/-- What writes to the output and changes the state, or stops the program. -/
abbrev Render := Text × RenderState → Option (Text × RenderState)

def ensureNewlines (count : ℕ) (out : Text) : Text :=
  out ++ List.replicate (count - (out.reverse.takeWhile (· = '\n')).length) '\n'

/-- Two newlines before and after. -/
def renderBlock (start : String) (inner : Render) : Render := fun (out, state) =>
  (inner (ensureNewlines 2 out ++ start.toList, state)).map fun (out, state) =>
    (ensureNewlines 2 out, state)

def renderMarked (mark : String) (inner : Render) : Render := fun (out, state) =>
  (inner (out ++ mark.toList, state)).map fun (out, state) => (out ++ mark.toList, state)

/-- `usize -= 1`, which stops the program at zero. -/
def checkedPred : ℕ → Option ℕ
  | 0 => none
  | n + 1 => some n

def renderPre (el : HtmlNode) (inner : Render) : Render := fun (out, state) =>
  (inner (ensureNewlines 2 out ++ "```".toList ++ detectCodeLanguage el ++ ['\n'],
    { state with inPre := true })).map fun (out, state) =>
      let out := if out.getLast? = some '\n' then out else out ++ ['\n']
      (ensureNewlines 2 (out ++ "```".toList), { state with inPre := false })

def splitOnce (c : Char) (s : Text) : Option (Text × Text) :=
  if c ∈ s then some (s.takeWhile (· ≠ c), (s.dropWhile (· ≠ c)).tail) else none

def trackingQueryKeys : List String := ["fbclid", "gclid", "mc_cid", "mc_eid", "_ga", "ref_src"]

def isTracking (part : Text) : Bool :=
  let lower := toAsciiLowercase (part.takeWhile (· ≠ '='))
  "utm_".toList.isPrefixOf lower || trackingQueryKeys.contains (String.ofList lower)

def collapseTrackingParameters (href : Text) : Text :=
  match splitOnce '?' href with
  | none => href
  | some (base, queryAndFragment) =>
    let (query, fragment) := (splitOnce '#' queryAndFragment).getD (queryAndFragment, [])
    let kept := (query.splitOn '&').filter fun part => !isTracking part
    base ++ (if kept.isEmpty then [] else '?' :: ['&'].intercalate kept) ++
      (if fragment.isEmpty then [] else '#' :: fragment)

def renderLink (el : HtmlNode) (inner : Render) : Render := fun (out, state) =>
  let href := (el.attr "href").getD []
  (inner ([], state)).map fun (linkText, state) =>
    let linkText := trim linkText
    if !linkText.isEmpty && !href.isEmpty && href.head? != some '#' &&
        !"javascript:".toList.isPrefixOf href then
      (out ++ '[' :: linkText ++ "](".toList ++ collapseTrackingParameters href ++ [')'], state)
    else (out ++ linkText, state)

def renderUnordered (inner : Render) : Render := fun (out, state) =>
  (inner (ensureNewlines 2 out, { state with listDepth := state.listDepth + 1 })).bind
    fun (out, state) => (checkedPred state.listDepth).map fun listDepth =>
      (ensureNewlines 2 out, { state with listDepth })

def renderOrdered (inner : Render) : Render := fun (out, state) =>
  (inner (ensureNewlines 2 out,
    { state with
      listDepth := state.listDepth + 1
      orderedCounter := 0 :: state.orderedCounter })).bind
    fun (out, state) => (checkedPred state.listDepth).map fun listDepth =>
      (ensureNewlines 2 out,
        { state with listDepth, orderedCounter := state.orderedCounter.tail })

def renderItem (inner : Render) : Render := fun (out, state) =>
  let out := ensureNewlines 1 out ++ List.replicate (2 * (state.listDepth - 1)) ' '
  match state.orderedCounter with
  | counter :: outer =>
    inner (out ++ (counter + 1).repr.toList ++ ". ".toList,
      { state with orderedCounter := (counter + 1) :: outer })
  | [] => inner (out ++ "- ".toList, state)

def renderQuote (inner : Render) : Render := fun (out, state) =>
  (inner ([], state)).map fun (quoted, state) =>
    (ensureNewlines 2 (ensureNewlines 2 out ++
      (TextFile.lineChars (trim quoted)).flatMap fun line => "> ".toList ++ line ++ ['\n']), state)

def renderRow (colCount : ℕ) (row : List Text) : Text :=
  '|' :: ((List.range colCount).flatMap fun col =>
    ' ' :: trim ((row[col]?).getD []) ++ " |".toList) ++ ['\n']

def renderTable (rows : List (List Text)) : Text :=
  let colCount := (rows.map List.length).foldl max 0
  match rows with
  | [] => []
  | head :: body =>
    if colCount = 0 then []
    else renderRow colCount head ++
      ('|' :: (List.replicate colCount " --- |".toList).flatten ++ ['\n']) ++
      body.flatMap (renderRow colCount)

def renderImage (el : HtmlNode) : Text :=
  let alt := (el.attr "alt").getD []
  let src := (el.attr "src").getD []
  if !alt.isEmpty && !src.isEmpty then "![".toList ++ alt ++ "](".toList ++ src ++ [')'] else []

/-- An element from what writes its children, and the rows in it. -/
def renderElement (el : HtmlNode) (inner : Render) (rows : Option (List (List Text))) : Render :=
  fun (out, state) =>
    match String.ofList el.tag with
    | "h1" => renderBlock "# " inner (out, state)
    | "h2" => renderBlock "## " inner (out, state)
    | "h3" => renderBlock "### " inner (out, state)
    | "h4" => renderBlock "#### " inner (out, state)
    | "h5" => renderBlock "##### " inner (out, state)
    | "h6" => renderBlock "###### " inner (out, state)
    | "p" | "div" | "section" | "article" => renderBlock "" inner (out, state)
    | "br" => some (out ++ ['\n'], state)
    | "hr" => some (ensureNewlines 2 (ensureNewlines 2 out ++ "---".toList), state)
    | "strong" | "b" => renderMarked "**" inner (out, state)
    | "em" | "i" => renderMarked "*" inner (out, state)
    | "code" => if state.inPre then inner (out, state) else renderMarked "`" inner (out, state)
    | "pre" => renderPre el inner (out, state)
    | "a" => renderLink el inner (out, state)
    | "ul" => renderUnordered inner (out, state)
    | "ol" => renderOrdered inner (out, state)
    | "li" => renderItem inner (out, state)
    | "blockquote" => renderQuote inner (out, state)
    | "table" => rows.map fun rows =>
      (ensureNewlines 2 (ensureNewlines 2 out ++ renderTable rows), state)
    | "img" => some (out ++ renderImage el, state)
    | _ => inner (out, state)

/-- The rows of an element: its own cells when it is a row, then the rows inside it. -/
def rowsOf (tag : Text) (cells : Option (List Text)) (inside : Option (List (List Text))) :
    Option (List (List Text)) :=
  if tag = "tr".toList then
    cells.bind fun cells => inside.map fun rows => if cells.isEmpty then rows else cells :: rows
  else inside

mutual

def renderNodes : List HtmlNodeChild → Render
  | [] => some
  | child :: rest => fun s => (renderNode child s).bind (renderNodes rest)

def renderNode : HtmlNodeChild → Render
  | .text text => fun (out, state) =>
    some (out ++ (if state.inPre then text else normalizeWhitespace text), state)
  | .element tag attrs children =>
    renderElement ⟨tag, attrs, children⟩ (renderNodes children)
      (rowsOf tag (cellsIn children) (collectRows children))

/-- The rows inside the elements of a list. -/
def collectRows : List HtmlNodeChild → Option (List (List Text))
  | [] => some []
  | child :: rest => (collectRowsAt child).bind fun rows =>
    (collectRows rest).map fun more => rows ++ more

def collectRowsAt : HtmlNodeChild → Option (List (List Text))
  | .text _ => some []
  | .element tag _ children => rowsOf tag (cellsIn children) (collectRows children)

/-- The cells among the children of a row. -/
def cellsIn : List HtmlNodeChild → Option (List Text)
  | [] => some []
  | child :: rest => (cellAt child).bind fun cell =>
    (cellsIn rest).map fun more => cell.toList ++ more

def cellAt : HtmlNodeChild → Option (Option Text)
  | .text _ => some none
  | .element tag _ children =>
    if tag = "td".toList ∨ tag = "th".toList then
      (renderNodes children ([], {})).map fun written => some (trim written.1)
    else some none

end

/-- At most two newlines in a row, and no white space around. -/
def collapseFrom (newlines : ℕ) : Text → Text
  | [] => []
  | ch :: rest =>
    if ch = '\n' then
      -- a `u32` in a release build
      let newlines := (newlines + 1) % 2 ^ 32
      if newlines ≤ 2 then '\n' :: collapseFrom newlines rest else collapseFrom newlines rest
    else ch :: collapseFrom 0 rest

def collapseWhitespace (text : Text) : Text := trim (collapseFrom 0 text)

def nodesToMarkdown (nodes : List HtmlNodeChild) : Option Text :=
  (renderNodes nodes ([], {})).map fun written => collapseWhitespace written.1

/-! ## Extraction -/

structure ExtractionResult where
  title : Option Text
  content : Text
  codeBlocks : List CodeBlock
  metadata : ArticleMeta

def ExtractionResult.metadataLine (extraction : ExtractionResult) : Option Text :=
  let fields := [extraction.metadata.url, extraction.title, extraction.metadata.date].filterMap id
  if fields.isEmpty then none else some ("Source: ".toList ++ " | ".toList.intercalate fields)

def extractArticleContent (html : Text) : Option ExtractionResult := do
  let nodes ← buildTree (← tokenize html)
  let article := selectMainContent nodes
  let content ← nodesToMarkdown article
  let (title, metadata) := extractMetadata nodes article
  some { title, content, codeBlocks := collectCodeBlocks article, metadata }

def minHtmlBytes : ℕ := 5000

def maxExtractedTokens : ℕ := 8000

def charsPerTokenEstimate : ℕ := 4

def keepDataDivisor : ℕ := 2

structure CrushResult where
  text : Text
  lossless : Bool
  originalBytes : ℕ
  extractedTokens : ℕ

def isHtmlContent (content : Text) : Bool :=
  let trimmed := toAsciiLowercase (content.dropWhile ByteText.isWhitespace)
  "<!doctype".toList.isPrefixOf trimmed || "<html".toList.isPrefixOf trimmed ||
    "<?xml".toList.isPrefixOf trimmed ||
    (TextSearch.contains "<head".toList trimmed && TextSearch.contains "<body".toList trimmed)

/-- The loop that goes back to a character boundary. -/
def floorBoundary (s : Text) : ℕ → ℕ
  | 0 => 0
  | n + 1 => if (sliceTo s (n + 1)).isSome then n + 1 else floorBoundary s n

/-- `a - b`, which stops the program when `b` is greater. -/
def checkedSub (a b : ℕ) : Option ℕ := if b ≤ a then some (a - b) else none

/-- Outside is nothing when the program stops; inside is nothing when the page stays as it is. -/
def crushIfBeneficial (html : Text) : Option (Option CrushResult) :=
  if len html < minHtmlBytes then some none
  else if !isHtmlContent html then some none
  else do
    let extraction ← extractArticleContent html
    if extraction.content.isEmpty then return none
    let extracted := match extraction.metadataLine with
      | some line => line ++ "\n\n".toList ++ extraction.content
      | none => extraction.content
    let originalTokens := len html / charsPerTokenEstimate
    let extractedTokens := len extracted / charsPerTokenEstimate
    if originalTokens ≤ extractedTokens * keepDataDivisor then return none
    if maxExtractedTokens < extractedTokens then
      let charBudget := maxExtractedTokens * charsPerTokenEstimate
      let front ← sliceTo extracted (floorBoundary extracted (min charBudget (len extracted)))
      let more ← checkedSub originalTokens maxExtractedTokens
      return some
        { text := front ++ "\n\n[… truncated, ".toList ++ more.repr.toList ++
            " more tokens in original]".toList
          lossless := false
          originalBytes := len html
          extractedTokens := maxExtractedTokens }
    return some
      { text := extracted
        lossless := false
        originalBytes := len html
        extractedTokens }

/-! ## Pages that are extracted -/

/-- It always writes, and leaves the depth of lists as it was. -/
def Balanced (render : Render) : Prop :=
  ∀ s, ∃ out state, render s = some (out, state) ∧ state.listDepth = s.2.listDepth

section Balanced

variable {inner : Render}

theorem Balanced.pure {f : Text × RenderState → Text × RenderState}
    (hf : ∀ s, (f s).2.listDepth = s.2.listDepth) : Balanced fun s => some (f s) :=
  fun s => ⟨(f s).1, (f s).2, rfl, hf s⟩

/-- What is written around the children does not matter. -/
theorem Balanced.around (hinner : Balanced inner) (s : Text × RenderState)
    {before : Text × RenderState} {after : Text × RenderState → Text × RenderState}
    (hbefore : before.2.listDepth = s.2.listDepth)
    (hafter : ∀ t, (after t).2.listDepth = t.2.listDepth) :
    ∃ out state, (inner before).map after = some (out, state) ∧
      state.listDepth = s.2.listDepth := by
  obtain ⟨out, state, hwritten, hdepth⟩ := hinner before
  rw [hwritten]
  exact ⟨_, _, rfl, (hafter _).trans (hdepth.trans hbefore)⟩

/-- One level down and up again. -/
theorem Balanced.below (hinner : Balanced inner) (s : Text × RenderState)
    {before : Text × RenderState} {after : Text × RenderState → ℕ → Text × RenderState}
    (hbefore : before.2.listDepth = s.2.listDepth + 1)
    (hafter : ∀ t depth, (after t depth).2.listDepth = depth) :
    ∃ out state, ((inner before).bind fun t => (checkedPred t.2.listDepth).map (after t)) =
      some (out, state) ∧ state.listDepth = s.2.listDepth := by
  obtain ⟨out, state, hwritten, hdepth⟩ := hinner before
  have hpred : checkedPred state.listDepth = some s.2.listDepth := by
    rw [hdepth, hbefore]
    rfl
  rw [hwritten, Option.bind_some, hpred]
  exact ⟨_, _, rfl, hafter _ _⟩

theorem balanced_renderBlock (start : String) (hinner : Balanced inner) :
    Balanced (renderBlock start inner) := fun s => hinner.around s rfl fun _ => rfl

theorem balanced_renderMarked (mark : String) (hinner : Balanced inner) :
    Balanced (renderMarked mark inner) := fun s => hinner.around s rfl fun _ => rfl

theorem balanced_renderPre (el : HtmlNode) (hinner : Balanced inner) :
    Balanced (renderPre el inner) := fun s => hinner.around s rfl fun _ => rfl

theorem balanced_renderQuote (hinner : Balanced inner) : Balanced (renderQuote inner) :=
  fun s => hinner.around s rfl fun _ => rfl

theorem balanced_renderLink (el : HtmlNode) (hinner : Balanced inner) :
    Balanced (renderLink el inner) := by
  refine fun s => hinner.around s rfl fun t => ?_
  dsimp only
  split_ifs <;> rfl

theorem balanced_renderUnordered (hinner : Balanced inner) : Balanced (renderUnordered inner) :=
  fun s => hinner.below s rfl fun _ _ => rfl

theorem balanced_renderOrdered (hinner : Balanced inner) : Balanced (renderOrdered inner) :=
  fun s => hinner.below s rfl fun _ _ => rfl

theorem balanced_renderItem (hinner : Balanced inner) : Balanced (renderItem inner) := by
  rintro ⟨out, state⟩
  unfold renderItem
  dsimp only
  split
  · exact hinner _
  · exact hinner _

theorem balanced_renderElement {el : HtmlNode} {rows : Option (List (List Text))}
    (hinner : Balanced inner) (hrows : rows.isSome) : Balanced (renderElement el inner rows) := by
  obtain ⟨rows, rfl⟩ := Option.isSome_iff_exists.mp hrows
  rintro ⟨out, state⟩
  unfold renderElement
  dsimp only
  split
  any_goals exact balanced_renderBlock _ hinner _
  any_goals exact balanced_renderMarked _ hinner _
  any_goals exact ⟨_, _, rfl, rfl⟩
  · split_ifs
    · exact hinner _
    · exact balanced_renderMarked _ hinner _
  · exact balanced_renderPre _ hinner _
  · exact balanced_renderLink _ hinner _
  · exact balanced_renderUnordered hinner _
  · exact balanced_renderOrdered hinner _
  · exact balanced_renderItem hinner _
  · exact balanced_renderQuote hinner _
  · exact hinner _

end Balanced

theorem rowsOf_isSome {tag : Text} {cells : Option (List Text)} {inside : Option (List (List Text))}
    (hcells : cells.isSome) (hinside : inside.isSome) : (rowsOf tag cells inside).isSome := by
  obtain ⟨cells, rfl⟩ := Option.isSome_iff_exists.mp hcells
  obtain ⟨inside, rfl⟩ := Option.isSome_iff_exists.mp hinside
  rw [rowsOf]
  split_ifs <;> rfl

/-- All that is asked of a tree while it is written. -/
def Rendered (node : HtmlNodeChild) : Prop :=
  Balanced (renderNode node) ∧ (collectRowsAt node).isSome ∧ (cellAt node).isSome

theorem rendered_list {nodes : List HtmlNodeChild} (h : ∀ c ∈ nodes, Rendered c) :
    Balanced (renderNodes nodes) ∧ (collectRows nodes).isSome ∧ (cellsIn nodes).isSome := by
  induction nodes with
  | nil => exact ⟨fun s => ⟨s.1, s.2, rfl, rfl⟩, rfl, rfl⟩
  | cons child rest ih =>
    obtain ⟨⟨hrender, hrows, hcell⟩, hrest⟩ := List.forall_mem_cons.mp h
    obtain ⟨hrender', hrows', hcells'⟩ := ih hrest
    obtain ⟨rows, hrows⟩ := Option.isSome_iff_exists.mp hrows
    obtain ⟨cell, hcell⟩ := Option.isSome_iff_exists.mp hcell
    refine ⟨fun s => ?_, ?_, ?_⟩
    · obtain ⟨out, state, hwritten, hdepth⟩ := hrender s
      obtain ⟨out', state', hwritten', hdepth'⟩ := hrender' (out, state)
      refine ⟨out', state', ?_, hdepth'.trans hdepth⟩
      rw [renderNodes]
      change (renderNode child s).bind (renderNodes rest) = _
      rw [hwritten, Option.bind_some, hwritten']
    · rw [collectRows, hrows, Option.bind_some, Option.isSome_map]
      exact hrows'
    · rw [cellsIn, hcell, Option.bind_some, Option.isSome_map]
      exact hcells'

theorem rendered (node : HtmlNodeChild) : Rendered node := by
  induction node using HtmlNodeChild.tree_induction with
  | text t => exact ⟨fun s => ⟨_, _, rfl, rfl⟩, rfl, rfl⟩
  | element tag attrs children ih =>
    obtain ⟨hrender, hrows, hcells⟩ := rendered_list ih
    have hinside : (rowsOf tag (cellsIn children) (collectRows children)).isSome :=
      rowsOf_isSome hcells hrows
    refine ⟨?_, ?_, ?_⟩
    · rw [renderNode]
      exact balanced_renderElement hrender hinside
    · rw [collectRowsAt]
      exact hinside
    · rw [cellAt]
      split_ifs
      · obtain ⟨out, state, hwritten, -⟩ := hrender ([], {})
        rw [hwritten]
        rfl
      · rfl

theorem nodesToMarkdown_isSome (nodes : List HtmlNodeChild) : (nodesToMarkdown nodes).isSome := by
  obtain ⟨out, state, hwritten, -⟩ := (rendered_list fun c (_ : c ∈ nodes) => rendered c).1 ([], {})
  rw [nodesToMarkdown, hwritten]
  rfl

/-- An article is extracted exactly from pages whose raw contents are cut between characters. -/
theorem extractArticleContent_isSome (html : Text) :
    (extractArticleContent html).isSome ↔ RawContentsWhole html := by
  rw [← tokenizeFrom_isSome [] html]
  change _ ↔ (tokenize html).isSome
  unfold extractArticleContent
  cases htokens : tokenize html with
  | none => simp
  | some tokens =>
    obtain ⟨nodes, hnodes⟩ := Option.isSome_iff_exists.mp (buildTree_isSome tokens)
    obtain ⟨content, hcontent⟩ :=
      Option.isSome_iff_exists.mp (nodesToMarkdown_isSome (selectMainContent nodes))
    simp [hnodes, hcontent]

theorem sliceTo_floorBoundary (s : Text) (n : ℕ) : (sliceTo s (floorBoundary s n)).isSome := by
  induction n with
  | zero => cases s <;> rfl
  | succ n ih =>
    rw [floorBoundary]
    split_ifs with h
    · exact h
    · exact ih

theorem crushIfBeneficial_isSome {html : Text} (h : RawContentsWhole html) :
    (crushIfBeneficial html).isSome := by
  obtain ⟨extraction, hextraction⟩ :=
    Option.isSome_iff_exists.mp ((extractArticleContent_isSome html).mpr h)
  unfold crushIfBeneficial
  rw [hextraction]
  split_ifs with hsmall hkind
  · rfl
  · rfl
  · dsimp only [Option.bind_eq_bind, Option.bind_some]
    split_ifs with hempty hlarge hlong
    · rfl
    · rfl
    · -- more than four times 8000 bytes are left out of a page more than twice as large
      generalize (match extraction.metadataLine with
        | some line => line ++ "\n\n".toList ++ extraction.content
        | none => extraction.content) = extracted at hlarge hlong ⊢
      obtain ⟨front, hfront⟩ := Option.isSome_iff_exists.mp (sliceTo_floorBoundary extracted
        (min (maxExtractedTokens * charsPerTokenEstimate) (len extracted)))
      have hmore : maxExtractedTokens ≤ len html / charsPerTokenEstimate := by
        rw [keepDataDivisor] at hlarge
        omega
      rw [hfront, checkedSub, if_pos hmore]
      rfl
    · rfl

/-- Both entry points return exactly on pages whose raw contents are cut between characters. -/
theorem extraction_returns (html : Text) :
    (extractArticleContent html).isSome ∧ (crushIfBeneficial html).isSome ↔
      RawContentsWhole html := by
  constructor
  · exact fun h => (extractArticleContent_isSome html).mp h.1
  · exact fun h => ⟨(extractArticleContent_isSome html).mpr h, crushIfBeneficial_isSome h⟩

/-- A script of 37 characters of three bytes. -/
def euroScript : Text := "<script>".toList ++ List.replicate 37 '€'

theorem not_always_returns :
    ¬∀ html : Text, (extractArticleContent html).isSome ∧ (crushIfBeneficial html).isSome := by
  intro h
  have hwhole := (extraction_returns euroScript).mp (h euroScript)
  have hattrs : parseAttrs ('>' :: List.replicate 37 '€') = ([], false, List.replicate 37 '€') := by
    rw [parseAttrs]
    rfl
  have hraw : rawOpened ("script>".toList ++ List.replicate 37 '€') =
      some ("script".toList, List.replicate 37 '€') := by
    have hopened : rawOpened ("script>".toList ++ List.replicate 37 '€') =
        some (toAsciiLowercase "script".toList, (parseAttrs ('>' :: List.replicate 37 '€')).2.2) :=
      rawOpened_eq (by decide) (by decide) (by decide +kernel) (by decide) (by decide)
    rw [hopened, hattrs]
    rfl
  have hcuts := hwhole _ _ _ (.refl _) hraw
  rw [← skipRawContent_isSome] at hcuts
  have hstops : skipRawContent (List.replicate 37 '€') "script".toList = none := by decide +kernel
  rw [hstops] at hcuts
  cases hcuts

end LeanCtx.HtmlCrush
