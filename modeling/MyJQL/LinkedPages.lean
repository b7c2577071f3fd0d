import Mathlib.Data.List.Basic
import Mathlib.Logic.Function.Basic

/-!
# Linked lists in an addressed memory

Nodes of a list live at addresses of a memory of pages and each page names the address of the
next one. A segment runs from its head address to a tail address and may be cut and joined at any
node, so an update inside a list is an update of one short segment.
-/

namespace MyJQL.LinkedPages

set_option autoImplicit false

/-- How the pages of a list read: where a node lives, which page contents stand for it, and which
address its page links to. -/
structure NodeShape (Page Node : Type) where
  addr : Node → Int
  next : Page → Int
  holds : Page → Node → Prop

namespace NodeShape

variable {Page Node : Type} (shape : NodeShape Page Node)

def Segment (page : Int → Page) : Int → List Node → Int → Prop
  | head, [], tail => head = tail
  | head, node :: rest, tail =>
      head = shape.addr node ∧ shape.holds (page (shape.addr node)) node ∧
        Segment page (shape.next (page (shape.addr node))) rest tail

variable {shape} {page changed : Int → Page} {head tail : Int}

theorem segment_append {front back : List Node} :
    shape.Segment page head (front ++ back) tail ↔
      ∃ middle, shape.Segment page head front middle ∧ shape.Segment page middle back tail := by
  induction front generalizing head with
  | nil => simp [Segment]
  | cons node rest ih =>
      simp only [List.cons_append, Segment, ih]
      constructor
      · rintro ⟨own, holds, middle, first, second⟩
        exact ⟨middle, ⟨own, holds, first⟩, second⟩
      · rintro ⟨middle, ⟨own, holds, first⟩, second⟩
        exact ⟨own, holds, middle, first, second⟩

theorem segment_frame {nodes : List Node}
    (same : ∀ node ∈ nodes, changed (shape.addr node) = page (shape.addr node))
    (segment : shape.Segment page head nodes tail) : shape.Segment changed head nodes tail := by
  induction nodes generalizing head with
  | nil => exact segment
  | cons node rest ih =>
      obtain ⟨own, holds, behind⟩ := segment
      have here := same node List.mem_cons_self
      refine ⟨own, by rw [here]; exact holds, ?_⟩
      rw [here]
      exact ih (fun other member => same other (List.mem_cons_of_mem _ member)) behind

theorem segment_focus {front back : List Node} {node : Node}
    (segment : shape.Segment page head (front ++ node :: back) tail) :
    shape.Segment page head front (shape.addr node) ∧ shape.holds (page (shape.addr node)) node ∧
      shape.Segment page (shape.next (page (shape.addr node))) back tail := by
  obtain ⟨middle, first, own, holds, behind⟩ := segment_append.mp segment
  rw [own] at first
  exact ⟨first, holds, behind⟩

theorem segment_join {front back : List Node} {node : Node}
    (first : shape.Segment page head front (shape.addr node))
    (holds : shape.holds (page (shape.addr node)) node)
    (behind : shape.Segment page (shape.next (page (shape.addr node))) back tail) :
    shape.Segment page head (front ++ node :: back) tail :=
  segment_append.mpr ⟨shape.addr node, first, rfl, holds, behind⟩

section Changes

variable {front back : List Node} {node : Node}

theorem segment_replace {fresh : Node} (segment : shape.Segment page head (front ++ node :: back) tail)
    (place : shape.addr fresh = shape.addr node)
    (same : ∀ other ∈ front ++ back, changed (shape.addr other) = page (shape.addr other))
    (holds : shape.holds (changed (shape.addr node)) fresh)
    (link : shape.next (changed (shape.addr node)) = shape.next (page (shape.addr node))) :
    shape.Segment changed head (front ++ fresh :: back) tail := by
  obtain ⟨first, _, behind⟩ := segment_focus segment
  refine segment_join ?_ ?_ ?_
  · rw [place]
    exact segment_frame (fun other member => same other (List.mem_append_left _ member)) first
  · rw [place]
    exact holds
  · rw [place, link]
    exact segment_frame (fun other member => same other (List.mem_append_right _ member)) behind

theorem segment_unlink {before : Node} (segment : shape.Segment page head (front ++ before :: node :: back) tail)
    (same : ∀ other ∈ front ++ back, changed (shape.addr other) = page (shape.addr other))
    (holds : shape.holds (changed (shape.addr before)) before)
    (link : shape.next (changed (shape.addr before)) = shape.next (page (shape.addr node))) :
    shape.Segment changed head (front ++ before :: back) tail := by
  obtain ⟨first, _, _, _, behind⟩ := segment_focus segment
  refine segment_join ?_ holds ?_
  · exact segment_frame (fun other member => same other (List.mem_append_left _ member)) first
  · rw [link]
    exact segment_frame (fun other member => same other (List.mem_append_right _ member)) behind

theorem segment_extend {fresh : Node} {newTail : Int} (segment : shape.Segment page head (front ++ [node]) tail)
    (same : ∀ other ∈ front, changed (shape.addr other) = page (shape.addr other))
    (holds : shape.holds (changed (shape.addr node)) node)
    (link : shape.next (changed (shape.addr node)) = shape.addr fresh)
    (started : shape.holds (changed (shape.addr fresh)) fresh)
    (ends : shape.next (changed (shape.addr fresh)) = newTail) :
    shape.Segment changed head (front ++ [node, fresh]) newTail := by
  obtain ⟨first, _, _⟩ := segment_focus segment
  exact segment_join (segment_frame same first) holds ⟨link, started, ends⟩

end Changes

end NodeShape

end MyJQL.LinkedPages
