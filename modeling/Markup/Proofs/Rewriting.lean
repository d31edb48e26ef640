import Markup.Proofs.InPlace
import Markup.Proofs.Joining
import Markup.Proofs.Sharing

/-! What the editors do to stores. Each of them rewrites a store as its function reshapes the
document, and what it reports is collected from the document. -/
namespace Markup

namespace Tree

variable {α ε ζ : Type} {f : α → List (Tree α) → α × List (Tree α)}

theorem collect_nil (t : Tree α) : t.collect f (fun _ _ => ([] : List ε)) = [] := by
  induction t using Tree.induct with
  | leaf a => simp
  | node a ts ih => simpa using ih

theorem collect_map (g : α → List (Tree α) → List ε) (h : ε → ζ) (t : Tree α) :
    t.collect f (fun a ts => (g a ts).map h) = (t.collect f g).map h := by
  induction t using Tree.induct with
  | leaf a => simp
  | node a ts ih =>
    have hts : ts.flatMap (collect f fun a ts => (g a ts).map h) =
        (ts.flatMap (collect f g)).map h := by
      rw [List.map_flatMap]
      exact List.flatMap_congr ih
    rw [collect_node, collect_node, hts, List.map_append]

end Tree

namespace Store

open Rewrite (foldEvent foundEvent)

variable {s : Store} {d : Doc}

theorem rewrite_linefeed (hd : s.toDoc = .ok d) (src : Source) :
    s.rewriteChildren (Rewrite.linefeed src) = .ok ([], ofDoc (Reshape.linefeed src d)) := by
  rw [rewriteChildren_of_toDoc ripe_plain (Rewrite.tidies_linefeed src).follows hd,
    Tree.collect_nil, Reshape.linefeed]

theorem rewrite_conditional (hd : s.toDoc = .ok d) : s.rewriteChildren Rewrite.conditional =
    .ok ((Reshape.foldedGuards d).map foldEvent, ofDoc (Reshape.conditional d)) := by
  rw [rewriteChildren_of_toDoc ripe_plain Rewrite.tidies_conditional.follows hd,
    Tree.collect_map (fun _ ds => Reshape.guards ds), Reshape.foldedGuards, Reshape.conditional]

theorem rewrite_cdata (hd : s.toDoc = .ok d) :
    s.rewriteChildren Rewrite.cdata = .ok ([], ofDoc (Reshape.cdata d)) := by
  rw [rewriteChildren_of_toDoc ripe_plain Rewrite.tidies_cdata.follows hd, Tree.collect_nil,
    Reshape.cdata]

theorem rewrite_interpolation (hd : s.toDoc = .ok d) (src : Source) :
    s.rewriteChildren (Rewrite.interpolation src) =
      .ok ((Reshape.foundExpressions src d).map foundEvent,
        ofDoc (Reshape.interpolation src d)) := by
  have hevents : (fun (c : Content) (ds : List Doc) =>
      if c.isScriptLike then [] else (ds.flatMap (Reshape.expressions src)).map foundEvent) =
      fun c ds => (if c.isScriptLike then [] else ds.flatMap (Reshape.expressions src)).map
        foundEvent := by
    funext c ds
    split <;> rfl
  rw [rewriteChildren_of_toDoc Rewrite.ripe_gives (Rewrite.follows_interpolation src) hd, hevents,
    Tree.collect_map, Reshape.foundExpressions, Reshape.interpolation]

theorem rewrite_whitespace (hd : s.toDoc = .ok d) (src : Source) :
    s.rewriteChildren (Rewrite.whitespace src) = .ok ([], ofDoc (Reshape.whitespace src d)) := by
  rw [rewriteChildren_of_toDoc ripe_plain (Rewrite.tidies_whitespace src).follows hd,
    Tree.collect_nil, Reshape.whitespace]

theorem rewrite_simpleElement (hd : s.toDoc = .ok d) : s.rewriteChildren Rewrite.simpleElement =
    .ok ((Reshape.foldedElements d).map .foldedElement, ofDoc (Reshape.simpleElement d)) := by
  rw [rewriteChildren_of_toDoc ripe_plain Rewrite.tidies_simpleElement.follows hd,
    Tree.collect_map (fun _ ds => Reshape.folded ds), Reshape.foldedElements, Reshape.simpleElement]

end Store

end Markup
