import Mathlib.Data.List.Flatten
import Mathlib.Logic.Relation
import Unjump.Graph.Basic
import Unjump.Graph.Outline
import Unjump.Proofs.Edge
import Unjump.Proofs.Reading

/-!
The rendering of a graph shows every block that it can reach exactly once.

It works off a list of edges and keeps the set of blocks already shown. Whatever the graph looks
like, each edge that it follows puts exactly one line on the page: the header of its target the
first time, and a jump to it from then on. The printed text says the same, since headers, jumps and
labels can be told apart by their first characters.
-/

namespace Unjump

open Relation (ReflTransGen)

/-- Whether a construct has a test and two arms. -/
def Construct.isChoice : Construct → Bool
  | .ifThen | .ifElse | .ternary | .conditionTernary => true
  | _ => false

/-- Whether the rendering follows edges of a kind from blocks of a type. -/
def BlockType.follows (type : BlockType) : EdgeKind → Bool
  | .next | .case _ | .handler _ => true
  | .branch => match type with
    | .raw _ | .structured .jsr => true
    | _ => false
  | .condition => match type with
    | .structured construct => construct.isChoice
    | _ => false
  | .sub1 => match type with
    | .structured .conditionOr | .structured .conditionAnd | .structured .loop
    | .structured .tryBlock | .structured .tryJsr | .structured .tryRejoin => true
    | .structured construct => construct.isChoice
    | _ => false
  | .sub2 => match type with
    | .structured .conditionOr | .structured .conditionAnd => true
    | .structured construct => construct.isChoice
    | _ => false

/-- The block that a line introduces. -/
def OutlineContent.header? : OutlineContent → Option BlockId
  | .block id => some id
  | .entry | .label _ | .jump _ => none

/-- The target that a line names, be it by a header or by a jump. -/
def OutlineContent.target? : OutlineContent → Option Target
  | .block id => some (.block id)
  | .jump target => some target
  | .entry | .label _ => none

/-- The target of the edge that is left to follow. -/
def OutlineItem.target? : OutlineItem → Option Target
  | .edge _ target => some target
  | .label _ _ => none

namespace Graph

/-- The blocks that lines introduce, in order. -/
def headers (lines : List OutlineLine) : List BlockId := lines.filterMap (·.content.header?)

/-- The targets that lines name, in order. -/
def named (lines : List OutlineLine) : List Target := lines.filterMap (·.content.target?)

/-- The targets that the rendering follows from a block, one for each edge. -/
def followed (g : Graph) (id : BlockId) : List Target :=
  let b := g.block id
  -- The entry has no header, and nothing hangs on it but the first block.
  if id = start then b.next.toList else (b.edges.filter fun edge => b.type.follows edge.1).map (·.2)

/-- Whether the rendering follows some edge from one block to another. -/
def Follows (g : Graph) (source target : BlockId) : Prop := .block target ∈ g.followed source

end Graph

/-! ### The items of a block -/

namespace Block

/-- The edges of the fixed kinds that pass a test, without their kinds. -/
private theorem map_filter_fixed (test : EdgeKind → Bool)
    (entries : List (EdgeKind × Option Target)) :
    ((entries.filterMap fun entry => entry.2.map (entry.1, ·)).filter fun edge => test edge.1).map
      (·.2) = (entries.filter fun entry => test entry.1).filterMap (·.2) := by
  -- By induction on the entries, each of which is absent, passes or does not pass.
  induction entries with
  | nil => rfl
  | cons entry rest ih =>
    obtain ⟨kind, _ | target⟩ := entry <;> by_cases passes : test kind <;> simp_all

/-- The edges of listed entries that all pass a test, without their kinds. -/
private theorem map_filter_mapIdx {α : Type} (test : EdgeKind → Bool) (kind : Nat → EdgeKind)
    (target : α → Target) (passes : ∀ i, test (kind i)) (entries : List α) :
    ((entries.mapIdx fun i entry => (kind i, target entry)).filter fun edge => test edge.1).map
      (·.2) = entries.map target := by
  -- Nothing is left out.
  have all : (entries.mapIdx fun i entry => (kind i, target entry)).filter
      (fun edge => test edge.1) = entries.mapIdx fun i entry => (kind i, target entry) := by
    refine List.filter_eq_self.mpr fun edge listed => ?_
    obtain ⟨i, _, rfl⟩ := List.mem_mapIdx.mp listed
    exact passes i
  rw [all]
  exact List.ext_getElem (by simp) (by simp)

/-- The nested targets, in the order of rendering. -/
theorem map_children (b : Block) : b.children.map (·.2) =
    b.typedChildren.filterMap (·.2) ++ b.cases.map (·.target) ++ b.handlers.map (·.target) := by
  -- The labels are dropped.
  simp [children, Function.comp_def, List.map_filterMap]

/-- The edges that are followed lead to the next block and to the nested ones. -/
theorem map_filter_edges (b : Block) :
    (b.edges.filter fun edge => b.type.follows edge.1).map (·.2) =
      b.next.toList ++ b.children.map (·.2) := by
  -- The type decides which of the fixed kinds are children; cases and handlers always are.
  have fixed :
    ([(EdgeKind.next, b.next), (.branch, b.branch), (.condition, b.condition), (.sub1, b.sub1),
      (.sub2, b.sub2)].filter fun entry => b.type.follows entry.1).filterMap (·.2) =
        b.next.toList ++ b.typedChildren.filterMap (·.2) := by
    rw [typedChildren]
    cases b.next <;> cases b.type with
    | start => rfl
    | raw type => rfl
    | structured construct => cases construct <;> rfl
  rw [edges, List.filter_append, List.filter_append, List.map_append, List.map_append,
    map_filter_fixed, fixed, map_filter_mapIdx _ _ _ fun _ => rfl,
    map_filter_mapIdx _ _ _ fun _ => rfl, map_children]
  simp only [List.append_assoc]

/-- The items of a block are its nested targets and then the one it goes on to. -/
theorem filterMap_outlineItems (b : Block) (depth : Nat) :
    (b.outlineItems depth).filterMap OutlineItem.target? =
      b.children.map (·.2) ++ b.next.toList := by
  -- Labels lead nowhere, so that of each child its edge is left.
  have nested : ∀ children : List (String × Target),
      (children.flatMap fun child => [OutlineItem.label (depth + 1) child.1,
        .edge (depth + 2) child.2]).filterMap OutlineItem.target? = children.map (·.2) := by
    intro children
    induction children with
    | nil => rfl
    | cons child rest ih =>
      rw [List.flatMap_cons, List.filterMap_append, ih]
      rfl
  rw [outlineItems, List.filterMap_append, nested]
  cases b.next <;> rfl

end Block

namespace Graph

variable {g : Graph} {items : List OutlineItem} {shown : IdSet}

/-- What a block leaves to render is what is followed from it. -/
theorem outlineItems_perm {id : BlockId} (other : id ≠ start) (depth : Nat) :
    (((g.block id).outlineItems depth).filterMap OutlineItem.target?).Perm (g.followed id) := by
  rw [followed, if_neg other, Block.map_filter_edges, Block.filterMap_outlineItems]
  -- The next block is listed first and rendered last.
  exact List.perm_append_comm

/-! ### The lines -/

/-- Every edge that is followed puts one line on the page, a header or a jump. -/
theorem named_render_perm (entry : start ∈ shown) : (named (g.render items shown)).Perm
    (items.filterMap OutlineItem.target? ++
      (headers (g.render items shown)).flatMap g.followed) := by
  -- As the rendering goes, with one line for each item but a label.
  fun_induction render g items shown with
  | case1 => exact .refl _
  | case2 shown depth text rest ih => exact ih entry
  | case3 shown depth way rest ih => exact (ih entry).cons _
  | case4 shown depth id rest new fewer ih =>
    -- The items of the block stand for the edges followed from it, which its header accounts for.
    have other : id ≠ start := fun same => new.1 (same ▸ entry)
    have ih := ih (by simp [entry])
    rw [List.filterMap_append, List.append_assoc] at ih
    refine .cons _ ?_
    refine ih.trans ?_
    exact ((outlineItems_perm other depth).append_right _).trans (List.perm_append_comm_assoc _ _ _)
  | case5 shown depth id rest old ih => exact (ih entry).cons _

/-- No block has two headers, and those shown before have none. -/
theorem headers_render : (headers (g.render items shown)).Nodup ∧
    ∀ id ∈ headers (g.render items shown), id ∉ shown ∧ id < g.size := by
  -- As the rendering goes: a header is written for a block that is not among those shown,
  -- and puts it there.
  fun_induction render g items shown with
  | case1 => exact ⟨.nil, nofun⟩
  | case2 shown depth text rest ih => exact ih
  | case3 shown depth way rest ih => exact ih
  | case4 shown depth id rest new fewer ih =>
    obtain ⟨distinct, fresh⟩ := ih
    refine ⟨List.nodup_cons.mpr ⟨fun again => (fresh id again).1 (by simp), distinct⟩,
      fun other listed => ?_⟩
    rcases List.mem_cons.mp listed with rfl | later
    · exact new
    · exact ⟨fun old => (fresh other later).1 (by simp [old]), (fresh other later).2⟩
  | case5 shown depth id rest old ih => exact ih

/-- Headers belong to a set that holds the targets of the items
and is closed under the edges that are followed. -/
theorem headers_render_subset (Member : BlockId → Prop) (entry : start ∈ shown)
    (listed : ∀ id, .block id ∈ items.filterMap OutlineItem.target? → Member id)
    (closed : ∀ source target, Member source → g.Follows source target → Member target) :
    ∀ id ∈ headers (g.render items shown), Member id := by
  -- A block that gets its header puts the targets that are followed from it in front of the items.
  fun_induction render g items shown with
  | case1 => exact nofun
  | case2 shown depth text rest ih => exact ih entry listed
  | case3 shown depth way rest ih =>
    exact ih entry fun id later => listed id (List.mem_cons_of_mem _ later)
  | case4 shown depth id rest new fewer ih =>
    have other : id ≠ start := fun same => new.1 (same ▸ entry)
    have isMember : Member id := listed id List.mem_cons_self
    intro found isHeader
    rcases List.mem_cons.mp isHeader with rfl | later
    · exact isMember
    · refine ih (by simp [entry]) (fun target isItem => ?_) found later
      rw [List.filterMap_append] at isItem
      rcases List.mem_append.mp isItem with nested | waiting
      · exact closed id target isMember ((outlineItems_perm other depth).mem_iff.mp nested)
      · exact listed target (List.mem_cons_of_mem _ waiting)
  | case5 shown depth id rest old ih =>
    exact ih entry fun id later => listed id (List.mem_cons_of_mem _ later)

/-- A jump leads out of the graph or to a block that has its header already. -/
theorem jump_render {before after : List OutlineLine} {depth : Nat} {target : Target}
    (split : g.render items shown = before ++ ⟨depth, .jump target⟩ :: after) :
    (∃ way, target = .exit way) ∨
      ∃ id, target = .block id ∧ (id ∈ shown ∨ id ∈ headers before ∨ g.size ≤ id) := by
  -- The jump is the first line of what is rendered, or stands among the later ones.
  fun_induction render g items shown generalizing before with
  | case1 => cases before <;> cases split
  | case2 shown depth text rest ih =>
    obtain ⟨rfl, same⟩ | ⟨earlier, rfl, later⟩ := List.cons_eq_append_iff.mp split
    · cases same
    · have found := ih later
      exact found
  | case3 shown depth way rest ih =>
    obtain ⟨rfl, same⟩ | ⟨earlier, rfl, later⟩ := List.cons_eq_append_iff.mp split
    · cases same
      exact .inl ⟨way, rfl⟩
    · have found := ih later
      exact found
  | case4 shown depth id rest new fewer ih =>
    obtain ⟨rfl, same⟩ | ⟨earlier, rfl, later⟩ := List.cons_eq_append_iff.mp split
    · cases same
    · refine (ih later).imp_right ?_
      rintro ⟨found, isBlock, known⟩
      refine ⟨found, isBlock, ?_⟩
      rcases known with old | isHeader | beyond
      · rcases IdSet.mem_insert.mp old with old | rfl
        · exact .inl old
        · exact .inr (.inl List.mem_cons_self)
      · exact .inr (.inl (List.mem_cons_of_mem _ isHeader))
      · exact .inr (.inr beyond)
  | case5 shown depth id rest old ih =>
    obtain ⟨rfl, same⟩ | ⟨earlier, rfl, later⟩ := List.cons_eq_append_iff.mp split
    · cases same
      refine .inr ⟨id, rfl, ?_⟩
      by_cases known : id ∈ shown
      · exact .inl known
      · exact .inr (.inr (Nat.le_of_not_lt fun within => old ⟨known, within⟩))
    · have found := ih later
      exact found

/-- A line that names a block is its header or a jump to it. -/
theorem mem_named {lines : List OutlineLine} {id : BlockId} (listed : .block id ∈ named lines) :
    id ∈ headers lines ∨ ∃ depth, ⟨depth, .jump (.block id)⟩ ∈ lines := by
  -- The line is one of those that name a target.
  obtain ⟨⟨depth, content⟩, isLine, isTarget⟩ := List.mem_filterMap.mp listed
  cases content with
  | entry | label => cases isTarget
  | block other =>
    cases isTarget
    exact .inl (List.mem_filterMap.mpr ⟨_, isLine, rfl⟩)
  | jump target =>
    cases isTarget
    exact .inr ⟨depth, isLine⟩

/-! ### The whole rendering -/

/-- The rendering starts with what is followed from the entry. -/
theorem filterMap_first (g : Graph) :
    ((g.block start).next.toList.map (OutlineItem.edge 1 ·)).filterMap OutlineItem.target? =
      g.followed start := by
  -- The entry has at most one edge that is followed.
  rw [followed, if_pos rfl]
  cases (g.block start).next <;> rfl

/-- Every edge that is followed from the entry or from a block shown puts one line on the page. -/
theorem named_outlineLines_perm (g : Graph) :
    (named g.outlineLines).Perm ((start :: headers g.outlineLines).flatMap g.followed) := by
  -- The entry counts as shown from the beginning.
  have entry : start ∈ IdSet.ofList [start] := by simp
  have rendered : (named g.outlineLines).Perm _ := named_render_perm entry
  rw [filterMap_first] at rendered
  exact rendered

/-- A jump of the whole rendering leads out of the graph, to what is shown above it,
or to no block. -/
theorem jump_outlineLines {before after : List OutlineLine} {depth : Nat} {target : Target}
    (split : g.outlineLines = before ++ ⟨depth, .jump target⟩ :: after) :
    (∃ way, target = .exit way) ∨
      ∃ id, target = .block id ∧ (id = start ∨ id ∈ headers before ∨ g.size ≤ id) := by
  -- The first line is that of the entry, which is no jump.
  obtain ⟨rfl, same⟩ | ⟨earlier, rfl, later⟩ := List.cons_eq_append_iff.mp split
  · cases same
  · refine (jump_render later).imp_right ?_
    rintro ⟨id, isBlock, known⟩
    exact ⟨id, isBlock, known.imp_left fun old => by simpa using old⟩

/-- Outside the graph nothing is followed. -/
theorem followed_of_size_le {id : BlockId} (beyond : g.size ≤ id) : g.followed id = [] := by
  -- A number without a block stands for a blank one.
  rw [followed, block_of_size_le beyond]
  split <;> rfl

/-- What is followed from the entry on is shown, unless it is no block at all. -/
theorem mem_headers_of_reach {id : BlockId} (reach : ReflTransGen g.Follows start id) :
    id = start ∨ id ∈ headers g.outlineLines ∨ g.size ≤ id := by
  -- Along the edges that are followed, from the entry on.
  induction reach with
  | refl => exact .inl rfl
  | @tail source target _ follows ih =>
    have isSource : source ∈ start :: headers g.outlineLines := by
      rcases ih with rfl | shown | beyond
      · exact List.mem_cons_self
      · exact List.mem_cons_of_mem _ shown
      · rw [Follows, followed_of_size_le beyond] at follows
        cases follows
    -- The edge has put a line on the page, and a jump comes after the header of its target.
    have isNamed :=
      (named_outlineLines_perm g).mem_iff.mpr (List.mem_flatMap.mpr ⟨source, isSource, follows⟩)
    rcases mem_named isNamed with shown | ⟨depth, isLine⟩
    · exact .inr (.inl shown)
    · obtain ⟨before, after, split⟩ := List.append_of_mem isLine
      rcases jump_outlineLines split with ⟨way, isExit⟩ | ⟨found, isBlock, known⟩
      · cases isExit
      · cases isBlock
        refine known.imp_right (Or.imp_left fun earlier => ?_)
        rw [split, headers, List.filterMap_append]
        exact List.mem_append_left _ earlier

/-- The rendering has headers for the blocks that can be reached along the edges it follows. -/
theorem mem_headers_outlineLines {id : BlockId} :
    id ∈ headers g.outlineLines ↔ id ≠ start ∧ id < g.size ∧ ReflTransGen g.Follows start id := by
  -- Following the lines one only gets where the edges lead, and every block that is reached
  -- in this way is shown.
  constructor
  · intro shown
    obtain ⟨fresh, within⟩ := headers_render.2 id shown
    refine ⟨fun same => fresh (by simp [same]), within, ?_⟩
    refine headers_render_subset (ReflTransGen g.Follows start) (by simp) (fun first listed => ?_)
      (fun source target reach follows => reach.tail follows) id shown
    rw [filterMap_first] at listed
    exact .single listed
  · rintro ⟨other, within, reach⟩
    rcases mem_headers_of_reach reach with same | shown | beyond
    · exact absurd same other
    · exact shown
    · exact absurd within (Nat.not_lt.mpr beyond)

/-! ### What the lines print -/

/-- The characters of a line of text behind the spaces that it starts with. -/
def unindented (text : String) : List Char := text.toList.dropWhile (· == ' ')

/-- Whether a line of text is the header of a block: after its spaces come `#`, the number
of the block and a space. -/
def isHeader (id : BlockId) (text : String) : Bool :=
  ("#" ++ toString id ++ " ").toList.isPrefixOf (unindented text)

/-- Whether a line of text is a jump: after its spaces comes an arrow to `#` and the number of a
block, or to the name of an exit. -/
def isJump (text : String) : Target → Bool
  | .block id => unindented text == ("-> #" ++ toString id).toList
  | .exit way => unindented text == ("-> " ++ way.name).toList

/-- Whether a line of text names a target, be it by a header or by a jump. -/
def isNaming (text : String) (target : Target) : Bool :=
  isJump text target || target.block?.any (isHeader · text)

/-- Whether a text starts with a letter. -/
def Worded (text : String) : Prop := ∃ c ∈ text.toList.head?, c.isAlpha = true

/-- Labels start with a letter, which tells them from headers and jumps. -/
theorem worded_of_mem_children {b : Block} {label : String} {target : Target}
    (listed : (label, target) ∈ b.children) : Worded label := by
  -- The labels of parts are fixed words, and those of cases and handlers start with one.
  have typed : ∀ entry ∈ b.typedChildren, Worded entry.1 := by
    rw [Block.typedChildren]
    split <;> simp [Worded]
  simp only [Block.children, List.mem_append, List.mem_filterMap, List.mem_map] at listed
  rcases listed with (⟨entry, isTyped, isChild⟩ | ⟨entry, -, isCase⟩) | ⟨handler, -, isHandler⟩
  · obtain ⟨child, -, same⟩ := Option.map_eq_some_iff.mp isChild
    cases same
    exact typed entry isTyped
  · cases isCase
    rw [SwitchCase.label]
    split
    · exact ⟨'d', by simp, rfl⟩
    · exact ⟨'c', by simp; exact .inl rfl, rfl⟩
  · cases isHandler
    rw [Handler.label]
    split
    · exact ⟨'f', by simp, rfl⟩
    · exact ⟨'c', by simp, rfl⟩

/-- The labels that a block adds to the items start with a letter. -/
theorem worded_outlineItems {b : Block} {depth other : Nat} {label : String}
    (listed : .label other label ∈ b.outlineItems depth) : Worded label := by
  -- The items of a block are a label and an edge for each child, and an edge to what follows.
  rcases List.mem_append.mp listed with nested | after
  · obtain ⟨⟨text, child⟩, isChild, isItem⟩ := List.mem_flatMap.mp nested
    rcases List.mem_cons.mp isItem with same | isEdge
    · cases same
      exact worded_of_mem_children isChild
    · cases List.mem_singleton.mp isEdge
  · obtain ⟨target, -, isEdge⟩ := List.mem_map.mp after
    cases isEdge

/-- Every label on the page starts with a letter if those among the items do. -/
theorem worded_render (worded : ∀ depth text, .label depth text ∈ items → Worded text) :
    ∀ depth text, ⟨depth, .label text⟩ ∈ g.render items shown → Worded text := by
  -- As the rendering goes: a label is an item from the beginning or comes from a block.
  fun_induction render g items shown with
  | case1 => exact nofun
  | case2 shown depth text rest ih =>
    intro other label listed
    rcases List.mem_cons.mp listed with same | later
    · cases same
      exact worded depth text List.mem_cons_self
    · exact ih (fun depth text waiting => worded depth text (List.mem_cons_of_mem _ waiting)) other
        label later
  | case3 shown depth way rest ih =>
    intro other label listed
    have later := (List.mem_cons.mp listed).resolve_left nofun
    exact ih (fun depth text waiting => worded depth text (List.mem_cons_of_mem _ waiting)) other
      label later
  | case4 shown depth id rest new fewer ih =>
    intro other label listed
    refine ih (fun depth' text waiting => ?_) other label
      ((List.mem_cons.mp listed).resolve_left nofun)
    rcases List.mem_append.mp waiting with own | waiting
    · exact worded_outlineItems own
    · exact worded depth' text (List.mem_cons_of_mem _ waiting)
  | case5 shown depth id rest old ih =>
    intro other label listed
    have later := (List.mem_cons.mp listed).resolve_left nofun
    exact ih (fun depth text waiting => worded depth text (List.mem_cons_of_mem _ waiting)) other
      label later

/-- The spaces in front of a line are its indentation. -/
theorem unindented_lineText {line : OutlineLine} {c : Char} {rest : List Char}
    (text : (g.contentText line.content).toList = c :: rest) (visible : c ≠ ' ') :
    unindented (g.lineText line) = c :: rest := by
  -- The indentation is made of spaces, and the first character behind it is none.
  rw [unindented, lineText, String.toList_append, String.toList_ofList, text,
    List.dropWhile_append_of_pos (by simp), List.dropWhile_cons_of_neg (by simpa using visible)]

/-- A header starts with `#`. -/
theorem isHeader_eq_false {text : String} {c : Char} {rest : List Char}
    (isText : unindented text = c :: rest) (other : c ≠ '#') (id : BlockId) :
    isHeader id text = false := by
  simp [isHeader, isText, List.isPrefixOf, Ne.symm other]

/-- A jump starts with an arrow. -/
theorem isJump_eq_false {text : String} {c : Char} {rest : List Char}
    (isText : unindented text = c :: rest) (other : c ≠ '-') (target : Target) :
    isJump text target = false := by
  cases target <;> simp [isJump, isText, other]

/-- The header of a block starts with its number and its type. -/
theorem header_eq (b : Block) (id : BlockId) :
    ∃ rest, b.header id = "#" ++ toString id ++ " " ++ b.type.text ++ rest := by
  -- Behind the type comes what the header says beside it.
  rw [Block.header, String.append_assoc, String.append_assoc]
  exact ⟨_, rfl⟩

/-- The line of a block starts with its header. -/
theorem unindented_block (g : Graph) (depth : Nat) (id : BlockId) : ∃ rest,
    unindented (g.lineText ⟨depth, .block id⟩) = '#' :: ((toString id).toList ++ ' ' :: rest) := by
  -- The `#` is the first character that is no space.
  obtain ⟨rest, isText⟩ := header_eq (g.block id) id
  refine ⟨((g.block id).type.text ++ rest).toList, unindented_lineText ?_ (by decide)⟩
  simp [contentText, isText]

/-- The line of a jump is an arrow to its target. -/
theorem unindented_jump (g : Graph) (depth : Nat) (target : Target) :
    unindented (g.lineText ⟨depth, .jump target⟩) = '-' :: '>' :: ' ' :: target.text.toList := by
  refine unindented_lineText ?_ (by decide)
  simp [contentText]

/-- A header tells its block by the number. -/
theorem isHeader_block (g : Graph) (depth : Nat) (shown id : BlockId) :
    isHeader id (g.lineText ⟨depth, .block shown⟩) = (shown == id) := by
  -- The header is compared from its first character on.
  obtain ⟨rest, isText⟩ := unindented_block g depth shown
  rw [Bool.eq_iff_iff, isHeader, List.isPrefixOf_iff_prefix, isText, beq_iff_eq]
  constructor
  · -- The digits end where the space comes.
    rintro ⟨others, same⟩
    simp only [String.toList_append, List.append_assoc] at same
    have digits :=
      append_inj_of_span (fun _ => isDigit_of_mem_toString) (fun _ => isDigit_of_mem_toString)
        (by simp) (by simp) (List.cons.inj same).2
    exact (toList_toString_inj digits.1).symm
  · rintro rfl
    exact ⟨rest, by simp⟩

/-- A block is written as `#` and its number. -/
theorem toList_text_block (id : BlockId) :
    (Target.block id).text.toList = '#' :: (toString id).toList := by
  -- The text is made of the two parts.
  have spelled : (Target.block id).text = "#" ++ toString id := rfl
  rw [spelled, String.toList_append]
  rfl

/-- The name of an exit does not start with `#`. -/
theorem toList_name_ne (way : Exit) (rest : List Char) : way.name.toList ≠ '#' :: rest := by
  cases way <;> simp [Exit.name]

/-- A target can be told from its written form. -/
theorem text_inj {target other : Target} (same : target.text.toList = other.text.toList) :
    target = other := by
  -- A block is written with `#` in front, and an exit without.
  cases target with
  | block id =>
    rw [toList_text_block] at same
    cases other with
    | block other =>
      rw [toList_text_block] at same
      rw [toList_toString_inj (List.cons.inj same).2]
    | exit way => exact absurd same.symm (toList_name_ne way _)
  | exit way =>
    cases other with
    | block other =>
      rw [toList_text_block] at same
      exact absurd same (toList_name_ne way _)
    | exit other =>
      cases way <;> cases other <;> first | rfl | simp [Target.text, Exit.name] at same

/-- A jump is an arrow to the written form of its target. -/
theorem isJump_eq (text : String) (target : Target) :
    isJump text target = (unindented text == '-' :: '>' :: ' ' :: target.text.toList) := by
  -- Blocks and exits differ in what stands behind the arrow.
  cases target with
  | block id => simp [isJump, toList_text_block]
  | exit way => simp [isJump, Target.text]

/-- A jump tells its target. -/
theorem isJump_jump (g : Graph) (depth : Nat) (target other : Target) :
    isJump (g.lineText ⟨depth, .jump target⟩) other = (target == other) := by
  -- Behind the arrow stands the target.
  rw [isJump_eq, unindented_jump, Bool.eq_iff_iff, beq_iff_eq, beq_iff_eq]
  constructor
  · intro same
    simp only [List.cons.injEq, true_and] at same
    exact text_inj same
  · rintro rfl
    rfl

/-- The line of the entry and those of labels start with a letter, and so are no headers
and no jumps. -/
theorem unindented_of_unnamed {line : OutlineLine} (listed : line ∈ g.outlineLines)
    (unnamed : line.content.target? = none) :
    ∃ c rest, unindented (g.lineText line) = c :: rest ∧ c.isAlpha = true := by
  -- The entry has a fixed text, and a label has its word.
  obtain ⟨depth, content⟩ := line
  cases content with
  | block | jump => cases unnamed
  | entry =>
    exact ⟨'S', ['T', 'A', 'R', 'T'], unindented_lineText (by simp [contentText]) (by decide), rfl⟩
  | label text =>
    have later := (List.mem_cons.mp listed).resolve_left nofun
    obtain ⟨c, isFirst, isLetter⟩ := worded_render (by simp) depth text later
    obtain ⟨rest, isText⟩ : ∃ rest, text.toList = c :: rest := by
      cases chars : text.toList with
      | nil => simp [chars] at isFirst
      | cons first rest => exact ⟨rest, by simpa [chars] using isFirst⟩
    refine ⟨c, rest ++ [':'], unindented_lineText (by simp [contentText, isText]) ?_, isLetter⟩
    rintro rfl
    cases isLetter

/-- Among the lines, exactly the headers of a block read as its headers. -/
theorem isHeader_lineText {line : OutlineLine} (listed : line ∈ g.outlineLines) (id : BlockId) :
    isHeader id (g.lineText line) = (line.content.header? == some id) := by
  -- One case per kind of line.
  obtain ⟨depth, content⟩ := line
  cases content with
  | block shown => exact isHeader_block g depth shown id
  | jump target => exact isHeader_eq_false (unindented_jump g depth target) (by decide) id
  | entry | label =>
    obtain ⟨c, rest, isText, isLetter⟩ := unindented_of_unnamed listed rfl
    exact isHeader_eq_false isText (by rintro rfl; cases isLetter) id

/-- Among the lines, exactly those that name a target read as if they did. -/
theorem isNaming_lineText {line : OutlineLine} (listed : line ∈ g.outlineLines) (target : Target) :
    isNaming (g.lineText line) target = (line.content.target? == some target) := by
  -- A line is a header or a jump by its first character, and all else is neither.
  have headers := isHeader_lineText listed
  rw [isNaming]
  obtain ⟨depth, content⟩ := line
  cases content with
  | block shown =>
    obtain ⟨rest, isText⟩ := unindented_block g depth shown
    rw [isJump_eq_false isText (by decide)]
    cases target with
    | block id =>
      rw [Bool.eq_iff_iff]
      simp [Target.block?, headers, OutlineContent.header?, OutlineContent.target?]
    | exit way => rfl
  | jump other =>
    rw [isJump_jump]
    cases target <;> simp [Target.block?, headers, OutlineContent.header?, OutlineContent.target?]
  | entry | label =>
    obtain ⟨c, rest, isText, isLetter⟩ := unindented_of_unnamed listed rfl
    rw [isJump_eq_false isText (by rintro rfl; cases isLetter)]
    cases target <;> simp [Target.block?, headers, OutlineContent.header?, OutlineContent.target?]

/-- The lines of text that are headers of a block are counted by the list of headers. -/
theorem countP_isHeader (g : Graph) (id : BlockId) :
    (g.outlineLines.map g.lineText).countP (isHeader id) = (headers g.outlineLines).count id := by
  -- Both count the lines by what they show.
  rw [List.countP_map, headers, List.count_eq_countP, List.countP_filterMap]
  refine List.countP_congr fun line listed => ?_
  rw [Function.comp_apply, isHeader_lineText listed]
  cases line.content.header? <;> simp

/-- The lines of text that name a target are counted by the list of targets. -/
theorem countP_isNaming (g : Graph) (target : Target) :
    (g.outlineLines.map g.lineText).countP (isNaming · target) =
      (named g.outlineLines).count target := by
  -- Both count the lines by what they name.
  rw [List.countP_map, named, List.count_eq_countP, List.countP_filterMap]
  refine List.countP_congr fun line listed => ?_
  rw [Function.comp_apply, isNaming_lineText listed]
  cases line.content.target? <;> simp

/-- The rendering has one header for each block but the entry that can be reached along the edges it
follows, and none for any other. Each edge that is followed from the entry or from a block shown
puts one line on the page that names its target: its header, or a jump to an exit, to what is
already shown or to a number without a block.

In the text a header is an indented `#` with the number of the block and its type, and a jump is an
indented arrow to `#` and the number of a block or to the name of an exit.
No other line reads like that. -/
theorem outline_shows_reached_once (g : Graph) :
    let shown := headers g.outlineLines
    let printed := g.outlineLines.map g.lineText
    g.outline = String.join (printed.map (· ++ "\n")) ∧
      shown.Nodup ∧
      (∀ id, id ∈ shown ↔ id ≠ start ∧ id < g.size ∧ ReflTransGen g.Follows start id) ∧
      (named g.outlineLines).Perm ((start :: shown).flatMap g.followed) ∧
      (∀ before depth target after, g.outlineLines = before ++ ⟨depth, .jump target⟩ :: after →
        (∃ way, target = .exit way) ∨ ∃ id, target = .block id ∧
        (id = start ∨ id ∈ headers before ∨ g.size ≤ id)) ∧
      (∀ id, printed.countP (isHeader id) = shown.count id) ∧
      (∀ target, printed.countP (isNaming · target) =
        ((start :: shown).flatMap g.followed).count target) ∧
      ∀ depth, let indent := String.ofList (List.replicate (2 * depth) ' ')
        (∀ id, ∃ rest, g.lineText ⟨depth, .block id⟩ =
          indent ++ ("#" ++ toString id ++ " " ++ (g.block id).type.text ++ rest)) ∧
        (∀ id, g.lineText ⟨depth, .jump (.block id)⟩ = indent ++ ("-> #" ++ toString id)) ∧
        ∀ way, g.lineText ⟨depth, .jump (.exit way)⟩ = indent ++ ("-> " ++ way.name) := by
  intro shown printed
  -- The parts are about the text, the headers, the targets, the jumps, and the two counts.
  refine ⟨?_, headers_render.1, fun _ => mem_headers_outlineLines, g.named_outlineLines_perm,
    fun _ _ _ _ split => jump_outlineLines split, g.countP_isHeader, fun target => ?_,
    fun depth => ⟨?_, ?_, ?_⟩⟩
  · rw [outline, List.map_map]
    rfl
  · exact (g.countP_isNaming target).trans (g.named_outlineLines_perm.count_eq target)
  · intro id
    obtain ⟨rest, isText⟩ := header_eq (g.block id) id
    exact ⟨rest, congrArg _ isText⟩
  · intro id
    have spelled : "-> " ++ (Target.block id).text = "-> #" ++ toString id :=
      String.append_assoc.symm
    exact congrArg _ spelled
  · exact fun way => rfl

end Graph

end Unjump
