/-! # Membership functions

A shape is a triangle or a trapezoid over the real line. Both have four corners `a ≤ b ≤ c ≤ d`: the
grade rises from `a` to `b`, is one on the plateau from `b` to `c`, falls from `c` to `d` and is zero
elsewhere; a triangle has a plateau of one point. A shape may hold any numbers; `Shape.flaw?` tells
whether they are corners in this sense.
-/
namespace FuzzyControl

set_option autoImplicit false

inductive Shape where
  | triangle (a b c : Float)
  | trapezoid (a b c d : Float)

structure Corners where
  a : Float
  b : Float
  c : Float
  d : Float

namespace Corners

def toList (k : Corners) : List Float := [k.a, k.b, k.c, k.d]

end Corners

inductive ShapeFlaw where
  | notFinite
  | decreasing
  deriving DecidableEq, Repr

namespace ShapeFlaw

def message : ShapeFlaw → String
  | notFinite => "parâmetros precisam ser finitos"
  | decreasing => "parâmetros precisam ser não-decrescentes"

end ShapeFlaw

namespace Shape

instance : Inhabited Shape := ⟨triangle 0.0 0.0 0.0⟩

def corners : Shape → Corners
  | triangle a b c => ⟨a, b, b, c⟩
  | trapezoid a b c d => ⟨a, b, c, d⟩

@[simp] theorem corners_triangle (a b c : Float) : (triangle a b c).corners = ⟨a, b, b, c⟩ := rfl

@[simp] theorem corners_trapezoid (a b c d : Float) :
    (trapezoid a b c d).corners = ⟨a, b, c, d⟩ := rfl

/-- The first flaw of the corners: one that is not finite counts before a pair out of order. -/
def flaw? (s : Shape) : Option ShapeFlaw :=
  let k := s.corners
  if k.toList.all Float.isFinite then
    if k.a ≤ k.b ∧ k.b ≤ k.c ∧ k.c ≤ k.d then none else some .decreasing
  else some .notFinite

theorem flaw?_eq_none_iff (s : Shape) :
    s.flaw? = none ↔ (∀ x ∈ s.corners.toList, x.isFinite = true) ∧
      s.corners.a ≤ s.corners.b ∧ s.corners.b ≤ s.corners.c ∧ s.corners.c ≤ s.corners.d := by
  by_cases h : ∀ x ∈ s.corners.toList, x.isFinite = true
  · simp only [flaw?, List.all_eq_true, if_pos h]
    split <;> simp_all
  · simp only [flaw?, List.all_eq_true, if_neg h]
    exact ⟨fun e => (nomatch e), fun e => absurd e.1 h⟩

/-- The grade of `x`. A ramp is entered only between distinct corners, and a point that ends one
piece and begins the next counts once. -/
def grade (s : Shape) (x : Float) : Float :=
  let k := s.corners
  if k.a ≤ x ∧ x < k.b then (x - k.a) / (k.b - k.a)
  else if k.b ≤ x ∧ x ≤ k.c then 1.0
  else if k.c < x ∧ x ≤ k.d then (k.d - x) / (k.d - k.c)
  else 0.0

/-- The point that stands for the shape as its centre. It lies on the line through the middle of the
plateau at height one and the middle of the base at height zero, at the height of the centre of
gravity of a trapezoid; if both middles agree it is that middle. -/
def centroid (s : Shape) : Float :=
  let k := s.corners
  let top := k.c - k.b
  let bottom := k.d - k.a
  let topMiddle := k.b + top / 2.0
  let bottomMiddle := k.a + bottom / 2.0
  if topMiddle == bottomMiddle then topMiddle
  else
    let height := ((2.0 * top) + bottom) / (top + bottom) / 3.0
    let slope := topMiddle - bottomMiddle
    let offset := 1.0 - topMiddle * slope
    (height - offset) / slope

def middleOfMaximum (s : Shape) : Float :=
  s.corners.b + (s.corners.c - s.corners.b) / 2.0

/-- The ends of the interval outside which the grade is zero. -/
def support (s : Shape) : Float × Float := (s.corners.a, s.corners.d)

def core (s : Shape) : Float × Float := (s.corners.b, s.corners.c)

end Shape

end FuzzyControl
