import TypeGraph.Proofs.Lists
import TypeGraph.TypeExpr.OfNode
import TypeGraph.Validator.TypeBox
import TypeGraph.Validator.Zod

/-!
# Emitters as passes over lists

The parts of a node are written one after another, in every target: lists of nodes as they are, and
the properties of an object under their names. The emitters are recursive through these lists; here
the lists are passes with the emitter of a part, so that what holds of passes holds of each of them.
-/

namespace TypeGraph

variable {definitions : DefinitionMap}

namespace Validator.Zod

theorem ofAll_eq_mapM (nodes : List Node) :
    ofAll definitions nodes = nodes.mapM (ofNode definitions) :=
  eq_mapM (by rw [ofAll]) (fun _ _ => by rw [ofAll]) nodes

theorem ofShape_eq_mapM (shape : List (String × Node)) :
    ofShape definitions shape =
      shape.mapM fun property => return (property.1, ← ofNode definitions property.2) :=
  eq_mapM_values (by rw [ofShape]) (fun _ _ _ => by rw [ofShape]) shape

end Validator.Zod

namespace Validator.TypeBox

theorem ofAll_eq_mapM (nodes : List Node) :
    ofAll definitions nodes = nodes.mapM (ofNode definitions) :=
  eq_mapM (by rw [ofAll]) (fun _ _ => by rw [ofAll]) nodes

theorem ofShape_eq_mapM (shape : List (String × Node)) :
    ofShape definitions shape =
      shape.mapM fun property => return (property.1, ← ofProperty definitions property.2) :=
  eq_mapM_values (by rw [ofShape]) (fun _ _ _ => by rw [ofShape]) shape

end Validator.TypeBox

namespace TypeExpr

theorem ofAll_eq_mapM (nodes : List Node) :
    ofAll definitions nodes = nodes.mapM (ofNode definitions) :=
  eq_mapM (by rw [ofAll]) (fun _ _ => by rw [ofAll]) nodes

theorem ofSlots_eq_mapM (nodes : List Node) :
    ofSlots definitions nodes = nodes.mapM (ofSlot definitions) :=
  eq_mapM (by rw [ofSlots]) (fun _ _ => by rw [ofSlots]) nodes

theorem ofShape_eq_mapM (shape : List (String × Node)) :
    ofShape definitions shape =
      shape.mapM fun property => return (property.1, ← ofSlot definitions property.2) :=
  eq_mapM_values (by rw [ofShape]) (fun _ _ _ => by rw [ofShape]) shape

end TypeExpr

end TypeGraph
