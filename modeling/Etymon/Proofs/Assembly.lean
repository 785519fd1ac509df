import Etymon.Proofs.Action
import Etymon.Proofs.Query
import Etymon.Text.Split

/-!
# The pieces of an assembled text

The text of a query is made of pieces: the forms of its leaves, and the evolved texts of the sides
that are looked up. Stress is taken away from one side at every node, so in the end a single piece
keeps its marks: the one that is reached by taking the stressed side at every node.

## Main definitions

* `Query.Piece`: a piece, with the sides that lead to it.
* `Query.pieces`: the pieces of a query in reading order.
* `Query.spine`: the stressed sides, down to a leaf or a side that is looked up.
* `Query.Piece.spoken`: what a piece's text becomes in the text of the query.

## Main results

* `Query.countP_pieces_spine`: the spine leads to one piece.
* `assemble_eq_ok_iff`: the text of a query is that of its pieces.
* `assemble_characterized`: when a query is assembled, and what its text is.
-/

namespace Etymon

open Text

/-! ## Marks of primary stress -/

theorem unstressed_append (s t : String) : unstressed (s ++ t) = unstressed s ++ unstressed t := by
  simp [unstressed]

@[simp] theorem unstressed_unstressed (s : String) : unstressed (unstressed s) = unstressed s := by
  simp [unstressed]

/-- What stands between two texts that are joined. -/
def syllableBreak (syllables : Bool) : String :=
  if syllables then "." else ""

@[simp] theorem unstressed_syllableBreak (syllables : Bool) :
    unstressed (syllableBreak syllables) = syllableBreak syllables := by
  cases syllables <;> rfl

theorem unstressed_joinWith {separator : String} (h : unstressed separator = separator)
    (texts : List String) :
    unstressed (joinWith separator texts) = joinWith separator (texts.map unstressed) := by
  induction texts with
  | nil => rfl
  | cons text texts ih =>
    cases texts with
    | nil => rfl
    | cons next texts =>
      rw [joinWith_cons_cons, unstressed_append, unstressed_append, h, ih, List.map_cons,
        List.map_cons, List.map_cons, joinWith_cons_cons]

namespace Query

/-! ## Pieces -/

/-- Where a piece of text comes from: the form of a leaf, or the evolved text of a side. -/
inductive Source where
  | form (text : String)
  | evolved (side : Query)
  deriving DecidableEq

def Source.text? (evolved : Query → Option String) : Source → Option String
  | form text => some text
  | .evolved side => evolved side

/-- A piece of a query's text; `path` tells the side taken at each node on the way to it. -/
structure Piece where
  path : List Stress
  source : Source
  deriving DecidableEq

/-- The same piece, seen from a node that has it on the given side. -/
def Piece.under (side : Stress) (piece : Piece) : Piece :=
  ⟨side :: piece.path, piece.source⟩

/-- A side that starts where its node does gives its own pieces; any other is one piece. -/
def pieces : Query → List Piece
  | leaf form _ _ => [⟨[], .form form⟩]
  | node _ head tail start _ =>
    (if head.start = start then head.pieces else [⟨[], .evolved head⟩]).map (.under .head) ++
      (if tail.start = start then tail.pieces else [⟨[], .evolved tail⟩]).map (.under .tail)

/-- The way that takes the stressed side at every node. -/
def spine : Query → List Stress
  | leaf .. => []
  | node .head head _ start _ => .head :: if head.start = start then head.spine else []
  | node .tail _ tail start _ => .tail :: if tail.start = start then tail.spine else []

/-- The pieces that a side gives to its node. -/
def sidePieces (start : Option Era) (side : Query) : List Piece :=
  if side.start = start then side.pieces else [⟨[], .evolved side⟩]

/-- The stressed sides below a side of a node. -/
def sideSpine (start : Option Era) (side : Query) : List Stress :=
  if side.start = start then side.spine else []

section

variable {stress : Stress} {head tail side : Query} {start stop : Option Era}

theorem pieces_node : (node stress head tail start stop).pieces =
    (sidePieces start head).map (.under .head) ++ (sidePieces start tail).map (.under .tail) := rfl

theorem spine_node_head : (node .head head tail start stop).spine =
    .head :: sideSpine start head := rfl

theorem spine_node_tail : (node .tail head tail start stop).spine =
    .tail :: sideSpine start tail := rfl

theorem pieces_ne_nil (q : Query) : q.pieces ≠ [] := by
  induction q with
  | leaf form start stop => simp [pieces]
  | node stress head tail start stop ihh iht =>
    rw [pieces]
    split <;> simp [ihh]

theorem sidePieces_ne_nil : sidePieces start side ≠ [] := by
  unfold sidePieces
  split
  · exact side.pieces_ne_nil
  · simp

/-! ## The spine -/

/-- A way that starts at one side leads to the pieces of that side only. -/
theorem countP_map_under (taken turned : Stress) (path : List Stress) (ps : List Piece) :
    (ps.map (Piece.under turned)).countP (fun p => p.path = taken :: path) =
      if turned = taken then ps.countP (fun p => p.path = path) else 0 := by
  rw [List.countP_map]
  split
  · next h =>
    subst h
    simp [Function.comp_def, Piece.under]
  · next h =>
    simp [Function.comp_def, Piece.under, h]

/-- Taking the stressed side at every node leads to one piece. -/
theorem countP_pieces_spine (q : Query) : q.pieces.countP (fun p => p.path = q.spine) = 1 := by
  induction q with
  | leaf form start stop => simp [pieces, spine]
  | node stress head tail start stop ihh iht =>
    have hside : ∀ side : Query, side.pieces.countP (fun p => p.path = side.spine) = 1 →
        (sidePieces start side).countP (fun p => p.path = sideSpine start side) = 1 := by
      intro side ih
      unfold sidePieces sideSpine
      split
      · exact ih
      · simp
    cases stress with
    | head =>
      rw [pieces_node, spine_node_head, List.countP_append, countP_map_under, countP_map_under,
        hside head ihh]
      rfl
    | tail =>
      rw [pieces_node, spine_node_tail, List.countP_append, countP_map_under, countP_map_under,
        hside tail iht]
      rfl

end

/-- A piece keeps its marks of primary stress only at the end of the spine. -/
def Piece.spoken (spine : List Stress) (piece : Piece) (text : String) : String :=
  if piece.path = spine then text else unstressed text

/-- Seen from a node, the pieces of the stressed side are spoken as they are on that side. -/
theorem zipWith_spoken_stressed (side : Stress) (path : List Stress) (ps : List Piece)
    (texts : List String) :
    List.zipWith (Piece.spoken (side :: path)) (ps.map (.under side)) texts =
      List.zipWith (Piece.spoken path) ps texts := by
  rw [List.zipWith_map_left]
  congr 1
  funext piece text
  simp [Piece.spoken, Piece.under]

/-- Seen from a node, the pieces of the other side lose the mark that one of them still has. -/
theorem zipWith_spoken_unstressed {side other : Stress} (h : other ≠ side) (path : List Stress)
    (inner : List Stress) (ps : List Piece) (texts : List String) :
    List.zipWith (Piece.spoken (side :: path)) (ps.map (.under other)) texts =
      (List.zipWith (Piece.spoken inner) ps texts).map unstressed := by
  rw [List.zipWith_map_left, List.map_zipWith]
  congr 1
  funext piece text
  by_cases hp : piece.path = inner <;> simp [Piece.spoken, Piece.under, h, hp]

end Query

/-! ## The text of the pieces -/

section

variable {evolved : Query → Option String} {syllables : Bool} {start : Option Era}

/-- The texts of pieces, if every side among them is evolved. -/
def pieceTexts? (evolved : Query → Option String) (ps : List Query.Piece) : Option (List String) :=
  ps.mapM fun piece => piece.source.text? evolved

/-- What the pieces of a query become together. -/
def spokenText (syllables : Bool) (spine : List Stress) (ps : List Query.Piece)
    (texts : List String) : String :=
  joinWith (syllableBreak syllables) (List.zipWith (Query.Piece.spoken spine) ps texts)

theorem pieceTexts?_map_under (side : Stress) (ps : List Query.Piece) :
    pieceTexts? evolved (ps.map (.under side)) = pieceTexts? evolved ps := by
  simp [pieceTexts?, List.mapM_map, Function.comp_def, Query.Piece.under]

theorem pieceTexts?_append_eq_some {ps qs : List Query.Piece} {texts : List String} :
    pieceTexts? evolved (ps ++ qs) = some texts ↔ ∃ first second,
      pieceTexts? evolved ps = some first ∧ pieceTexts? evolved qs = some second ∧
      texts = first ++ second := by
  simp only [pieceTexts?, List.mapM_append, bind, pure, Option.bind_eq_some_iff, Option.some.injEq]
  exact ⟨fun ⟨first, hfirst, second, hsecond, h⟩ => ⟨first, second, hfirst, hsecond, h.symm⟩,
    fun ⟨first, second, hfirst, hsecond, h⟩ => ⟨first, hfirst, second, hsecond, h.symm⟩⟩

theorem pieceTexts?_cons_eq_some {p : Query.Piece} {ps : List Query.Piece} {texts : List String} :
    pieceTexts? evolved (p :: ps) = some texts ↔ ∃ text rest,
      p.source.text? evolved = some text ∧ pieceTexts? evolved ps = some rest ∧
      texts = text :: rest := by
  simp only [pieceTexts?, List.mapM_cons, bind, pure, Option.bind_eq_some_iff, Option.some.injEq]
  exact ⟨fun ⟨text, htext, rest, hrest, h⟩ => ⟨text, rest, htext, hrest, h.symm⟩,
    fun ⟨text, rest, htext, hrest, h⟩ => ⟨text, htext, rest, hrest, h.symm⟩⟩

/-- Each piece has one text. -/
theorem length_of_pieceTexts? {ps : List Query.Piece} {texts : List String}
    (h : pieceTexts? evolved ps = some texts) : texts.length = ps.length := by
  induction ps generalizing texts with
  | nil => cases h; rfl
  | cons p ps ih =>
    obtain ⟨text, rest, -, hrest, rfl⟩ := pieceTexts?_cons_eq_some.1 h
    rw [List.length_cons, List.length_cons, ih hrest]

theorem exists_pieceTexts?_iff {ps : List Query.Piece} :
    (∃ texts, pieceTexts? evolved ps = some texts) ↔
      ∀ piece ∈ ps, (piece.source.text? evolved).isSome := by
  induction ps with
  | nil => simp [pieceTexts?]
  | cons p ps ih =>
    rw [List.forall_mem_cons, ← ih, Option.isSome_iff_exists]
    simp only [pieceTexts?_cons_eq_some]
    constructor
    · rintro ⟨_, text, rest, htext, hrest, rfl⟩
      exact ⟨⟨text, htext⟩, rest, hrest⟩
    · rintro ⟨⟨text, htext⟩, rest, hrest⟩
      exact ⟨_, text, rest, htext, hrest, rfl⟩

/-- Joining the texts of two sides joins all their pieces, and the unstressed side keeps no mark. -/
theorem combine_spokenText {stress : Stress} {head tail : Query} {stop : Option Era}
    {headTexts tailTexts : List String}
    (hhead : headTexts.length = (Query.sidePieces start head).length)
    (htail : tailTexts.length = (Query.sidePieces start tail).length) :
    combine stress
        (spokenText syllables (Query.sideSpine start head) (Query.sidePieces start head) headTexts)
        (spokenText syllables (Query.sideSpine start tail) (Query.sidePieces start tail) tailTexts)
        syllables =
      spokenText syllables (Query.node stress head tail start stop).spine
        (Query.node stress head tail start stop).pieces (headTexts ++ tailTexts) := by
  have hne : ∀ (side : Query) (texts : List String) (path : List Stress) (turned : Stress),
      texts.length = (Query.sidePieces start side).length →
      List.zipWith (Query.Piece.spoken path) ((Query.sidePieces start side).map (.under turned))
        texts ≠ [] := by
    intro side texts path turned h hnil
    have hlen := congrArg List.length hnil
    rw [List.length_zipWith, List.length_map, h, Nat.min_self, List.length_nil,
      List.length_eq_zero_iff] at hlen
    exact Query.sidePieces_ne_nil hlen
  unfold spokenText
  rw [Query.pieces_node, List.zipWith_append (by rw [List.length_map, hhead]),
    joinWith_append _ (hne head _ _ _ hhead) (hne tail _ _ _ htail)]
  cases stress with
  | head =>
    rw [Query.spine_node_head, Query.zipWith_spoken_stressed,
      Query.zipWith_spoken_unstressed (by decide) _ (Query.sideSpine start tail),
      ← unstressed_joinWith (unstressed_syllableBreak _)]
    rfl
  | tail =>
    rw [Query.spine_node_tail, Query.zipWith_spoken_stressed,
      Query.zipWith_spoken_unstressed (by decide) _ (Query.sideSpine start head),
      ← unstressed_joinWith (unstressed_syllableBreak _)]
    rfl

/-- A side that is looked up is a single piece, and is spoken as it was evolved. -/
theorem sideText_eq_ok_iff {side : Query}
    (h : ∀ text, assemble evolved syllables side = .ok text ↔ ∃ texts,
      pieceTexts? evolved side.pieces = some texts ∧
        text = spokenText syllables side.spine side.pieces texts) {text : String} :
    sideText evolved syllables start side = .ok text ↔ ∃ texts,
      pieceTexts? evolved (Query.sidePieces start side) = some texts ∧
        text = spokenText syllables (Query.sideSpine start side) (Query.sidePieces start side)
          texts := by
  unfold sideText Query.sidePieces Query.sideSpine
  split
  · exact h text
  · cases hside : evolved side <;>
      simp [assemble.lookup, hside, pieceTexts?, Query.Source.text?, spokenText, Query.Piece.spoken,
        eq_comm]

/-- The text of a query is made of the texts of its pieces. -/
theorem assemble_eq_ok_iff {q : Query} {text : String} :
    assemble evolved syllables q = .ok text ↔ ∃ texts, pieceTexts? evolved q.pieces = some texts ∧
      text = spokenText syllables q.spine q.pieces texts := by
  induction q generalizing text with
  | leaf form start stop =>
    simp [assemble, Query.pieces, Query.spine, pieceTexts?, spokenText, Query.Source.text?,
      Query.Piece.spoken, eq_comm]
  | node stress head tail start stop ihh iht =>
    rw [assemble_node, bind_eq_ok_iff]
    simp only [bind_eq_ok_iff, pure, Except.pure, Except.ok.injEq,
      sideText_eq_ok_iff fun _ => ihh, sideText_eq_ok_iff fun _ => iht]
    rw [Query.pieces_node]
    simp only [pieceTexts?_append_eq_some, pieceTexts?_map_under]
    constructor
    · rintro ⟨_, ⟨headTexts, hhead, rfl⟩, _, ⟨tailTexts, htail, rfl⟩, rfl⟩
      exact ⟨_, ⟨headTexts, tailTexts, hhead, htail, rfl⟩,
        combine_spokenText (length_of_pieceTexts? hhead) (length_of_pieceTexts? htail)⟩
    · rintro ⟨_, ⟨headTexts, tailTexts, hhead, htail, rfl⟩, rfl⟩
      exact ⟨_, ⟨headTexts, hhead, rfl⟩, _, ⟨tailTexts, htail, rfl⟩,
        combine_spokenText (length_of_pieceTexts? hhead) (length_of_pieceTexts? htail)⟩

/-- A query is assembled exactly when every side that is looked up is evolved. Its text is that of its
pieces in reading order; the one piece at the end of the spine is left as it is, and every other loses
its marks of primary stress. -/
theorem assemble_characterized (evolved : Query → Option String) (syllables : Bool) (q : Query) :
    (q.pieces.countP fun piece : Query.Piece => piece.path = q.spine) = 1 ∧
      ((∃ text, assemble evolved syllables q = .ok text) ↔
        ∀ piece ∈ q.pieces, ∀ side, piece.source = .evolved side → (evolved side).isSome) ∧
      ∀ text, assemble evolved syllables q = .ok text ↔ ∃ texts,
        q.pieces.mapM (fun piece => piece.source.text? evolved) = some texts ∧
        text = joinWith (if syllables then "." else "")
          (List.zipWith (fun piece text => if piece.path = q.spine then text else unstressed text)
            q.pieces texts) := by
  refine ⟨q.countP_pieces_spine, ?_, fun text => assemble_eq_ok_iff⟩
  have htexts : (∃ text, assemble evolved syllables q = .ok text) ↔
      ∃ texts, pieceTexts? evolved q.pieces = some texts := by
    simp only [assemble_eq_ok_iff]
    exact ⟨fun ⟨_, texts, h, _⟩ => ⟨texts, h⟩, fun ⟨texts, h⟩ => ⟨_, texts, h, rfl⟩⟩
  rw [htexts, exists_pieceTexts?_iff]
  refine forall₂_congr fun piece _ => ?_
  cases h : piece.source <;> simp [Query.Source.text?]

end

end Etymon
