import EagerLoad.Proofs.Inclusion.Positions

/-!
Contract: the list of paths of an inclusion tree tells its shape and nothing else.

Owns: the lines of a tree, of which its paths are the texts; what a text says of its line; the
shape of a tree, by names and marks alone; the agreement of equal paths with equal shapes.

Does not own: positions in a tree (`Positions.lean`), or what is loaded along it.

A tree has a line for each node that is recursive or has nothing below it. Other nodes have no
line of their own and are seen in the lines of the nodes below them. Texts keep lines apart when
no name has a point in it and none ends in the mark: the point would divide the name, and the mark
would make a plain node of one name look like a recursive one of another.
-/

set_option autoImplicit false

namespace EagerLoad

/-! ## Texts of lines -/

/-- What one path says: the names that lead to a node, and whether the node is recursive. -/
structure PathLine where
  name : String
  rest : List String
  marked : Bool
  deriving DecidableEq

/-- The names of a path, with points between them and the mark behind the last. -/
def PathLine.textOf (marked : Bool) (name : String) : List String → String
  | [] => if marked then name ++ InclusionTree.recursiveMark else name
  | next :: rest => name ++ "." ++ textOf marked next rest

/-- A name that has no point in it and does not end in the mark. -/
structure PlainName (name : String) : Prop where
  noPoint : '.' ∉ name.toList
  noMark : name.toList.getLast? ≠ some '+'

instance (name : String) : Decidable (PlainName name) :=
  decidable_of_iff ('.' ∉ name.toList ∧ name.toList.getLast? ≠ some '+')
    ⟨fun holds => ⟨holds.1, holds.2⟩, fun plain => ⟨plain.noPoint, plain.noMark⟩⟩

/-- Lists that are equal have the same parts before and behind the first divider. -/
theorem append_cons_inj_of_not_mem {α : Type} {divider : α} {first second more others : List α}
    (firstFree : divider ∉ first) (secondFree : divider ∉ second)
    (same : first ++ divider :: more = second ++ divider :: others) :
    first = second ∧ more = others := by
  induction first generalizing second with
  | nil =>
      cases second with
      | nil => exact ⟨rfl, (List.cons.inj same).2⟩
      | cons other rest =>
          have isDivider : divider = other := (List.cons.inj same).1
          exact absurd (isDivider ▸ List.mem_cons_self) secondFree
  | cons char rest inductionHypothesis =>
      cases second with
      | nil =>
          have isDivider : char = divider := (List.cons.inj same).1
          exact absurd (isDivider ▸ List.mem_cons_self) firstFree
      | cons other otherRest =>
          simp only [List.cons_append, List.cons.injEq] at same
          simp only [List.mem_cons, not_or] at firstFree secondFree
          have parts := inductionHypothesis firstFree.2 secondFree.2 same.2
          exact ⟨by rw [same.1, parts.1], parts.2⟩

namespace PathLine

def text (line : PathLine) : String := textOf line.marked line.name line.rest

/-- The line of the same node, seen from one level higher. -/
def below (name : String) (line : PathLine) : PathLine :=
  ⟨name, line.name :: line.rest, line.marked⟩

theorem text_below (name : String) (line : PathLine) :
    (line.below name).text = name ++ "." ++ line.text := rfl

theorem below_injective (name : String) : Function.Injective (below name) := by
  intro first second same
  cases first
  cases second
  simpa [below, and_assoc] using same

theorem toList_textOf_nil (marked : Bool) (name : String) :
    (textOf marked name []).toList = name.toList ++ if marked then ['+'] else [] := by
  cases marked <;> simp [textOf, InclusionTree.recursiveMark]

theorem toList_textOf_cons (marked : Bool) (name next : String) (rest : List String) :
    (textOf marked name (next :: rest)).toList
      = name.toList ++ '.' :: (textOf marked next rest).toList := by
  simp [textOf]

theorem point_not_mem_textOf_nil {name : String} (plain : PlainName name) (marked : Bool) :
    '.' ∉ (textOf marked name []).toList := by
  rw [toList_textOf_nil]
  cases marked <;> simp [plain.noPoint]

/-- The mark of a last name can be told from the name. -/
theorem textOf_nil_inj {name other : String} (plain : PlainName name) (otherPlain : PlainName other)
    {marked otherMarked : Bool} (same : textOf marked name [] = textOf otherMarked other []) :
    name = other ∧ marked = otherMarked := by
  have sameChars := congrArg String.toList same
  rw [toList_textOf_nil, toList_textOf_nil] at sameChars
  have endsInMark : ∀ chars : List Char, (chars ++ ['+']).getLast? = some '+' := by simp
  cases marked with
  | false =>
      cases otherMarked with
      | false => exact ⟨by simpa [String.toList_inj] using sameChars, rfl⟩
      | true =>
          have isMarked : name.toList = other.toList ++ ['+'] := by simpa using sameChars
          exact absurd (isMarked ▸ endsInMark other.toList) plain.noMark
  | true =>
      cases otherMarked with
      | false =>
          have isMarked : other.toList = name.toList ++ ['+'] := by simpa using sameChars.symm
          exact absurd (isMarked ▸ endsInMark name.toList) otherPlain.noMark
      | true => exact ⟨by simpa [String.toList_inj] using sameChars, rfl⟩

/-- A text gives back the names and the mark. -/
theorem textOf_inj {name other : String} {rest others : List String}
    (plain : ∀ known ∈ name :: rest, PlainName known)
    (otherPlain : ∀ known ∈ other :: others, PlainName known) {marked otherMarked : Bool}
    (same : textOf marked name rest = textOf otherMarked other others) :
    name = other ∧ rest = others ∧ marked = otherMarked := by
  induction rest generalizing name other others with
  | nil =>
      have namePlain := plain name List.mem_cons_self
      cases others with
      | nil =>
          have parts := textOf_nil_inj namePlain (otherPlain other List.mem_cons_self) same
          exact ⟨parts.1, rfl, parts.2⟩
      | cons next others =>
          -- One text has a point and the other has none.
          have noPoint := point_not_mem_textOf_nil namePlain marked
          rw [same, toList_textOf_cons] at noPoint
          simp at noPoint
  | cons next rest inductionHypothesis =>
      cases others with
      | nil =>
          have noPoint := point_not_mem_textOf_nil (otherPlain other List.mem_cons_self) otherMarked
          rw [← same, toList_textOf_cons] at noPoint
          simp at noPoint
      | cons otherNext others =>
          have sameChars := congrArg String.toList same
          rw [toList_textOf_cons, toList_textOf_cons] at sameChars
          have parts := append_cons_inj_of_not_mem (plain name List.mem_cons_self).noPoint
            (otherPlain other List.mem_cons_self).noPoint sameChars
          have onward := inductionHypothesis (fun known later => plain known (.tail name later))
            (fun known later => otherPlain known (.tail other later)) (String.toList_inj.1 parts.2)
          exact ⟨String.toList_inj.1 parts.1, by rw [onward.1, onward.2.1], onward.2.2⟩

/-- A line whose names are plain. -/
def Plain (line : PathLine) : Prop := ∀ known ∈ line.name :: line.rest, PlainName known

theorem text_inj {line other : PathLine} (plain : line.Plain) (otherPlain : other.Plain)
    (same : line.text = other.text) : line = other := by
  obtain ⟨sameName, sameRest, sameMark⟩ := textOf_inj plain otherPlain same
  cases line
  cases other
  simp_all

end PathLine

namespace InclusionTree

/-! ## Lines of trees -/

/-- The line of a node itself: it has one when it is recursive, and when nothing is below it. -/
def ownLines (node : IncludeNode) : List PathLine :=
  if node.children.isEmpty || node.isRecursive then [⟨node.name, [], node.isRecursive⟩] else []

mutual

def nodeLines : IncludeNode → List PathLine
  | .mk relation children recursion =>
      ownLines (.mk relation children recursion)
        ++ (lines children).map (PathLine.below relation.name)

/-- The lines of all nodes of a tree, in tree order. -/
def lines : List IncludeNode → List PathLine
  | [] => []
  | node :: rest => nodeLines node ++ lines rest

end

theorem nodeLines_eq (node : IncludeNode) :
    nodeLines node = ownLines node ++ (lines node.children).map (PathLine.below node.name) := by
  cases node
  rw [nodeLines]
  rfl

theorem lines_eq_flatMap (tree : InclusionTree) : lines tree = tree.flatMap nodeLines := by
  induction tree with
  | nil => simp [lines]
  | cons node rest inductionHypothesis => rw [lines, inductionHypothesis, List.flatMap_cons]

theorem pathsBelow_eq_flatMap (lead : String) (tree : InclusionTree) :
    pathsBelow lead tree = tree.flatMap (nodePaths lead) := by
  induction tree with
  | nil => simp [pathsBelow]
  | cons node rest inductionHypothesis => rw [pathsBelow, inductionHypothesis, List.flatMap_cons]

theorem nodePaths_eq (lead : String) (node : IncludeNode) :
    nodePaths lead node
      = (ownLines node).map (fun line => lead ++ line.text)
        ++ pathsBelow (lead ++ node.name ++ ".") node.children := by
  obtain ⟨relation, children, recursion⟩ := node
  -- Whether there is anything below the node decides with the rule which texts it has.
  cases children <;> cases recursion <;>
    simp [nodePaths, ownLines, PathLine.text, PathLine.textOf, pathsBelow, IncludeNode.children,
      IncludeNode.isRecursive, IncludeNode.recursion, IncludeNode.name, IncludeNode.relation,
      String.append_assoc]

/-- The paths of a tree are the texts of its lines. -/
theorem pathsBelow_eq_map (lead : String) (tree : InclusionTree) :
    pathsBelow lead tree = (lines tree).map fun line => lead ++ line.text := by
  induction tree using induction generalizing lead with
  | step tree inductionHypothesis =>
      rw [pathsBelow_eq_flatMap, lines_eq_flatMap, List.map_flatMap]
      apply List.flatMap_congr
      intro node member
      rw [nodePaths_eq, nodeLines_eq, List.map_append, inductionHypothesis node member,
        List.map_map]
      simp [Function.comp_def, PathLine.text_below, String.append_assoc]

theorem paths_perm (tree : InclusionTree) :
    (paths tree).Perm ((lines tree).map PathLine.text) := by
  have texts : pathsBelow "" tree = (lines tree).map PathLine.text := by
    simp [pathsBelow_eq_map]
  rw [← texts]
  exact List.mergeSort_perm _ _

theorem pairwise_paths (tree : InclusionTree) : (paths tree).Pairwise (· ≤ ·) := by
  have ascending : (paths tree).Pairwise fun first second => decide (first ≤ second) = true := by
    apply List.pairwise_mergeSort
    · intro first second third
      simpa using String.le_trans
    · intro first second
      simpa using String.le_total first second
  simpa using ascending

/-- The paths of a tree are the one ascending list of the texts of its lines. -/
theorem paths_eq_iff {tree : InclusionTree} {texts : List String} :
    paths tree = texts
      ↔ texts.Pairwise (· ≤ ·) ∧ ((lines tree).map PathLine.text).Perm texts := by
  constructor
  · rintro rfl
    exact ⟨pairwise_paths tree, (paths_perm tree).symm⟩
  · rintro ⟨ascending, perm⟩
    exact ((paths_perm tree).trans perm).eq_of_pairwise (fun _ _ _ _ => String.le_antisymm)
      (pairwise_paths tree) ascending

/-- Paths are equal when they are the same texts, in whatever order. -/
theorem paths_eq_iff_perm {tree other : InclusionTree} :
    paths tree = paths other
      ↔ ((lines tree).map PathLine.text).Perm ((lines other).map PathLine.text) := by
  rw [paths_eq_iff, and_iff_right (pairwise_paths other)]
  constructor
  · intro perm
    exact perm.trans (paths_perm other)
  · intro perm
    exact perm.trans (paths_perm other).symm

/-! ## Which lines a tree has -/

/-- How a node is shown that has a line of its own. -/
structure ShownAs (node : IncludeNode) (marked : Bool) : Prop where
  mark : node.isRecursive = marked
  isEnd : marked = false → node.children = []

theorem mem_ownLines_iff {node : IncludeNode} {line : PathLine} :
    line ∈ ownLines node ↔ line.name = node.name ∧ line.rest = [] ∧ ShownAs node line.marked := by
  obtain ⟨name, rest, marked⟩ := line
  unfold ownLines
  constructor
  · intro own
    split at own
    · rename_i shows
      obtain ⟨rfl, rfl, rfl⟩ := PathLine.mk.inj (List.mem_singleton.1 own)
      refine ⟨rfl, rfl, rfl, ?_⟩
      intro unmarked
      change node.isRecursive = false at unmarked
      simpa [unmarked] using shows
    · cases own
  · rintro ⟨rfl, rfl, rfl, isEnd⟩
    have shows : (node.children.isEmpty || node.isRecursive) = true := by
      cases unmarked : node.isRecursive with
      | false => simp [isEnd unmarked]
      | true => simp
    rw [if_pos shows]
    exact List.mem_singleton_self _

theorem nodup_ownLines (node : IncludeNode) : (ownLines node).Nodup := by
  unfold ownLines
  split <;> simp

theorem name_of_mem_nodeLines {node : IncludeNode} {line : PathLine}
    (member : line ∈ nodeLines node) : line.name = node.name := by
  rw [nodeLines_eq, List.mem_append, List.mem_map] at member
  rcases member with own | ⟨lower, _, rfl⟩
  · exact (mem_ownLines_iff.1 own).1
  · rfl

/-- Where siblings have different names, no line comes twice. -/
theorem nodup_lines {tree : InclusionTree} (distinct : Distinct tree) : (lines tree).Nodup := by
  induction distinct with
  | @intro tree names below inductionHypothesis =>
      rw [lines_eq_flatMap, List.nodup_flatMap]
      constructor
      · intro node member
        have lowerNodup := (inductionHypothesis node member).map
          (PathLine.below_injective node.name)
        rw [nodeLines_eq]
        refine (nodup_ownLines node).append lowerNodup ?_
        -- A line of the node itself has no further names, and one from below has some.
        intro line isOwn isLower
        obtain ⟨lower, _, rfl⟩ := List.mem_map.1 isLower
        cases (mem_ownLines_iff.1 isOwn).2.1
      · refine (List.pairwise_map.1 names).imp ?_
        intro first second differ line inFirst inSecond
        exact differ ((name_of_mem_nodeLines inFirst).symm.trans (name_of_mem_nodeLines inSecond))

theorem mem_lines {tree : InclusionTree} {line : PathLine} :
    line ∈ lines tree
      ↔ ∃ node ∈ tree, line ∈ ownLines node ∨ ∃ lower ∈ lines node.children,
          lower.below node.name = line := by
  simp only [lines_eq_flatMap tree, List.mem_flatMap, nodeLines_eq, List.mem_append, List.mem_map]

theorem mem_lines_nil {tree : InclusionTree} {name : String} {marked : Bool} :
    ⟨name, [], marked⟩ ∈ lines tree ↔ ∃ node ∈ tree, node.name = name ∧ ShownAs node marked := by
  rw [mem_lines]
  apply exists_congr
  intro node
  apply and_congr_right
  intro _
  constructor
  · rintro (own | ⟨lower, _, isLine⟩)
    · obtain ⟨named, _, shown⟩ := mem_ownLines_iff.1 own
      exact ⟨named.symm, shown⟩
    · cases (PathLine.mk.inj isLine).2.1
  · rintro ⟨named, shown⟩
    exact .inl (mem_ownLines_iff.2 ⟨named.symm, rfl, shown⟩)

theorem mem_lines_cons {tree : InclusionTree} {name next : String} {rest : List String}
    {marked : Bool} :
    ⟨name, next :: rest, marked⟩ ∈ lines tree
      ↔ ∃ node ∈ tree, node.name = name ∧ ⟨next, rest, marked⟩ ∈ lines node.children := by
  rw [mem_lines]
  apply exists_congr
  intro node
  apply and_congr_right
  intro _
  constructor
  · rintro (own | ⟨lower, isLower, isLine⟩)
    · cases (mem_ownLines_iff.1 own).2.1
    · obtain ⟨rfl, sameRest, rfl⟩ := PathLine.mk.inj isLine
      obtain ⟨rfl, rfl⟩ := List.cons.inj sameRest
      exact ⟨rfl, isLower⟩
  · rintro ⟨rfl, isLower⟩
    exact .inr ⟨⟨next, rest, marked⟩, isLower, rfl⟩

/-- The lines of a tree are those of the nodes at its positions that have lines of their own. -/
theorem mem_lines_iff {tree : InclusionTree} (distinct : Distinct tree) {name : String}
    {rest : List String} {marked : Bool} :
    ⟨name, rest, marked⟩ ∈ lines tree
      ↔ ∃ node, nodeAt? tree name rest = some node ∧ ShownAs node marked := by
  induction rest generalizing tree name with
  | nil =>
      rw [mem_lines_nil]
      simp only [nodeAt?, get?_eq_some_iff distinct, and_assoc]
  | cons next rest inductionHypothesis =>
      rw [mem_lines_cons]
      constructor
      · rintro ⟨top, member, named, isLower⟩
        obtain ⟨node, found, shown⟩ := (inductionHypothesis (distinct.children member)).1 isLower
        have isTop := (get?_eq_some_iff distinct).2 ⟨member, named⟩
        exact ⟨node, by rw [nodeAt?_cons isTop, found], shown⟩
      · rintro ⟨node, found, shown⟩
        obtain ⟨top, isTop, onward⟩ := Option.bind_eq_some_iff.1 found
        obtain ⟨member, named⟩ := (get?_eq_some_iff distinct).1 isTop
        have isLower := (inductionHypothesis (distinct.children member)).2 ⟨node, onward, shown⟩
        exact ⟨top, member, named, isLower⟩

/-! ## Shapes -/

/-- Two trees have the same names at the same positions, and the same of these nodes are
recursive. -/
def SameShape (tree other : InclusionTree) : Prop :=
  ∀ name rest, (nodeAt? tree name rest).map IncludeNode.isRecursive
    = (nodeAt? other name rest).map IncludeNode.isRecursive

theorem SameShape.symm {tree other : InclusionTree} (same : SameShape tree other) :
    SameShape other tree :=
  fun name rest => (same name rest).symm

/-- Every tree but the empty one has a line. -/
theorem exists_mem_lines {tree : InclusionTree} (notEmpty : tree ≠ []) :
    ∃ line, line ∈ lines tree := by
  induction tree using induction with
  | step tree inductionHypothesis =>
      obtain ⟨node, member⟩ := List.exists_mem_of_ne_nil tree notEmpty
      by_cases isEnd : node.children = []
      · exact ⟨⟨node.name, [], node.isRecursive⟩,
          mem_lines_nil.2 ⟨node, member, rfl, rfl, fun _ => isEnd⟩⟩
      · obtain ⟨lower, isLower⟩ := inductionHypothesis node member isEnd
        exact ⟨lower.below node.name, mem_lines_cons.2 ⟨node, member, rfl, isLower⟩⟩

/-- There is a node at a position if and only if some line leads through it. -/
theorem exists_nodeAt?_iff {tree : InclusionTree} (distinct : Distinct tree) {name : String}
    {rest : List String} :
    (∃ node, nodeAt? tree name rest = some node)
      ↔ ∃ more marked, ⟨name, rest ++ more, marked⟩ ∈ lines tree := by
  constructor
  · rintro ⟨node, found⟩
    by_cases isEnd : node.children = []
    · refine ⟨[], node.isRecursive, (mem_lines_iff distinct).2 ⟨node, ?_, rfl, fun _ => isEnd⟩⟩
      rw [List.append_nil, found]
    · obtain ⟨⟨next, more, marked⟩, isLower⟩ := exists_mem_lines isEnd
      obtain ⟨lower, isFound, shown⟩ := (mem_lines_iff (distinct.of_nodeAt? found)).1 isLower
      refine ⟨next :: more, marked, (mem_lines_iff distinct).2 ⟨lower, ?_, shown⟩⟩
      rw [nodeAt?_append, found, Option.bind_some, isFound]
  · rintro ⟨more, marked, isLine⟩
    obtain ⟨node, found, _⟩ := (mem_lines_iff distinct).1 isLine
    cases more with
    | nil => exact ⟨node, by rwa [List.append_nil] at found⟩
    | cons next more =>
        rw [nodeAt?_append] at found
        obtain ⟨onTheWay, isFound, _⟩ := Option.bind_eq_some_iff.1 found
        exact ⟨onTheWay, isFound⟩

/-- A node is recursive if and only if there is a marked line of it. -/
theorem isRecursive_iff {tree : InclusionTree} (distinct : Distinct tree) {name : String}
    {rest : List String} {node : IncludeNode} (found : nodeAt? tree name rest = some node) :
    node.isRecursive = true ↔ ⟨name, rest, true⟩ ∈ lines tree := by
  rw [mem_lines_iff distinct]
  constructor
  · intro recursive
    exact ⟨node, found, recursive, nofun⟩
  · rintro ⟨other, otherFound, shown⟩
    rw [found] at otherFound
    rw [Option.some.inj otherFound]
    exact shown.mark

/-- Trees with the same lines have the same shape. -/
theorem sameShape_of_lines {tree other : InclusionTree} (distinct : Distinct tree)
    (otherDistinct : Distinct other) (sameLines : ∀ line, line ∈ lines tree ↔ line ∈ lines other) :
    SameShape tree other := by
  intro name rest
  have known_iff : (∃ node, nodeAt? tree name rest = some node)
      ↔ ∃ node, nodeAt? other name rest = some node := by
    simp only [exists_nodeAt?_iff distinct, exists_nodeAt?_iff otherDistinct, sameLines]
  cases found : nodeAt? tree name rest with
  | none =>
      cases otherFound : nodeAt? other name rest with
      | none => rfl
      | some node => simp [found, otherFound] at known_iff
  | some node =>
      obtain ⟨otherNode, otherFound⟩ := known_iff.1 ⟨node, found⟩
      have recursive_iff : node.isRecursive = true ↔ otherNode.isRecursive = true := by
        rw [isRecursive_iff distinct found, isRecursive_iff otherDistinct otherFound, sameLines]
      rw [otherFound, Option.map_some, Option.map_some, Bool.eq_iff_iff.2 recursive_iff]

/-- A line of a tree is a line of every tree of its shape. -/
theorem SameShape.mem_lines {tree other : InclusionTree} (same : SameShape tree other)
    (distinct : Distinct tree) (otherDistinct : Distinct other) {line : PathLine}
    (isLine : line ∈ lines tree) : line ∈ lines other := by
  obtain ⟨name, rest, marked⟩ := line
  obtain ⟨node, found, shown⟩ := (mem_lines_iff distinct).1 isLine
  have sameMark := same name rest
  rw [found, Option.map_some] at sameMark
  obtain ⟨otherNode, otherFound, otherMark⟩ := Option.map_eq_some_iff.1 sameMark.symm
  refine (mem_lines_iff otherDistinct).2 ⟨otherNode, otherFound, ?_, ?_⟩
  · rw [otherMark, shown.mark]
  · -- What is below the node of one tree is below that of the other.
    intro unmarked
    apply List.eq_nil_iff_forall_not_mem.2
    intro lower member
    have noLower : nodeAt? tree name (rest ++ [lower.name]) = none := by
      rw [nodeAt?_append, found, Option.bind_some, shown.isEnd unmarked]
      exact nodeAt?_nil_tree lower.name []
    have sameBelow := same name (rest ++ [lower.name])
    have isLower : get? otherNode.children lower.name = some lower :=
      (get?_eq_some_iff (otherDistinct.of_nodeAt? otherFound)).2 ⟨member, rfl⟩
    rw [noLower, nodeAt?_append, otherFound, Option.bind_some, nodeAt?, isLower] at sameBelow
    cases sameBelow

/-! ## Paths and shapes -/

/-- No name in a tree has a point in it or ends in the mark. -/
inductive PlainNames : InclusionTree → Prop
  | intro {tree : InclusionTree} (names : ∀ node ∈ tree, PlainName node.name)
      (below : ∀ node ∈ tree, PlainNames node.children) : PlainNames tree

theorem plain_of_mem_lines {tree : InclusionTree} (plain : PlainNames tree) {line : PathLine}
    (isLine : line ∈ lines tree) : line.Plain := by
  induction plain generalizing line with
  | intro names below inductionHypothesis =>
      obtain ⟨node, member, own | ⟨lower, isLower, rfl⟩⟩ := mem_lines.1 isLine
      · obtain ⟨named, noRest, _⟩ := mem_ownLines_iff.1 own
        unfold PathLine.Plain
        rw [named, noRest]
        exact List.forall_mem_singleton.2 (names node member)
      · exact List.forall_mem_cons.2
          ⟨names node member, inductionHypothesis node member isLower⟩

theorem Fits.plainNames {schema : Schema} {entity : String} {tree : InclusionTree}
    (fits : Fits schema entity tree)
    (plain : ∀ relation ∈ schema.relations, PlainName relation.name) : PlainNames tree := by
  induction fits with
  | intro names declared below inductionHypothesis =>
      refine .intro ?_ inductionHypothesis
      intro node member
      exact plain node.relation (Schema.mem_relationsFrom.1 (declared node member)).1

/-- Where names are plain, a tree has a line if and only if it has the text of the line. -/
theorem text_mem_iff {tree other : InclusionTree} (plain : PlainNames tree)
    (otherPlain : PlainNames other) {line : PathLine} (isLine : line ∈ lines tree) :
    line.text ∈ (lines other).map PathLine.text ↔ line ∈ lines other := by
  rw [List.mem_map]
  constructor
  · rintro ⟨otherLine, isOther, sameText⟩
    have same := PathLine.text_inj (plain_of_mem_lines otherPlain isOther)
      (plain_of_mem_lines plain isLine) sameText
    rwa [← same]
  · intro isOther
    exact ⟨line, isOther, rfl⟩

/-- **The paths of a tree tell its shape.** For trees whose siblings have different names, and
whose names have no point in them and do not end in the mark, the lists of paths are equal if and
only if the trees have the same names at the same positions, with the same recursive nodes among
them. The order of siblings does not count. -/
theorem paths_eq_iff_sameShape {tree other : InclusionTree} (distinct : Distinct tree)
    (otherDistinct : Distinct other) (plain : PlainNames tree) (otherPlain : PlainNames other) :
    paths tree = paths other ↔ SameShape tree other := by
  rw [paths_eq_iff_perm]
  constructor
  · intro perm
    apply sameShape_of_lines distinct otherDistinct
    intro line
    constructor
    · intro isLine
      rw [← text_mem_iff plain otherPlain isLine, ← perm.mem_iff]
      exact List.mem_map_of_mem isLine
    · intro isLine
      rw [← text_mem_iff otherPlain plain isLine, perm.mem_iff]
      exact List.mem_map_of_mem isLine
  · intro same
    apply List.Perm.map
    rw [List.perm_ext_iff_of_nodup (nodup_lines distinct) (nodup_lines otherDistinct)]
    intro line
    exact ⟨same.mem_lines distinct otherDistinct, same.symm.mem_lines otherDistinct distinct⟩

end InclusionTree

namespace Library

/-- An author has drafts of books as well. -/
def drafts : Relation := { books with name := "drafts" }

def draftSchema : Schema := { relations := [books, drafts, author] }

/-- Books with their authors, books of one more level, and drafts. -/
def draftLoads : List Load :=
  [.paths [⟨[.relation "books", .relation "author"]⟩], .recursive ["books"] (.limit 1),
    .paths [⟨[.relation "drafts"]⟩]]

/-- Drafts first, then books of any level, and at last their authors. -/
def draftsFirst : List Load :=
  [.paths [⟨[.relation "drafts"]⟩], .recursive ["books"] .unbounded,
    .paths [⟨[.relation "books", .relation "author"]⟩]]

end Library

/-- Requests in two orders lead to trees that are not equal and have equal paths: they differ in
the order of siblings and in how far recursion reaches, and in no name and no mark. -/
theorem InclusionTree.paths_eq_iff_sameShape_library :
    let first := InclusionTree.build Library.draftSchema "author" Library.draftLoads
    let second := InclusionTree.build Library.draftSchema "author" Library.draftsFirst
    Distinct first ∧ Distinct second ∧ PlainNames first ∧ PlainNames second ∧ first ≠ second
      ∧ paths first = ["books+", "books.author", "drafts"] ∧ SameShape first second := by
  intro first second
  have namesDistinct : Library.draftSchema.NamesDistinct := by decide
  have plain : ∀ relation ∈ Library.draftSchema.relations, PlainName relation.name := by decide
  have isFirst := shaped_build namesDistinct "author" Library.draftLoads
  have isSecond := shaped_build namesDistinct "author" Library.draftsFirst
  have firstPlain := isFirst.fits.plainNames plain
  have secondPlain := isSecond.fits.plainNames plain
  have firstPaths : paths first = ["books+", "books.author", "drafts"] :=
    paths_eq_iff.2 ⟨by decide, by decide⟩
  have samePaths : paths first = paths second := paths_eq_iff_perm.2 (by decide)
  exact ⟨isFirst.distinct, isSecond.distinct, firstPlain, secondPlain, by decide, firstPaths,
    (paths_eq_iff_sameShape isFirst.distinct isSecond.distinct firstPlain secondPlain).1 samePaths⟩

end EagerLoad
