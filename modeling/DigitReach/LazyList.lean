/-!
# Lazy lists

A lazy list is a finite list whose tails are made when they are asked for. The
enumerations of this library are lazy lists: a few elements can be taken from one
that is far too long to be made, and going through one keeps nothing of it.

A lazy list is known by its list of elements, `toList`. Each operation is the list
operation of the same name on them:

* `toList_append`, `toList_map`, `toList_flatMap`, `toList_ofList` say what is in
  a list that was made;
* `toList_drop` and `take_eq` say what is left of it, and what comes first;
* `foldl_eq` and `length_eq` say what comes of going through all of it.
-/

namespace DigitReach

universe u v

/-- A finite list whose tails are made on demand. -/
inductive LazyList (α : Type u) where
  /-- No elements. -/
  | nil
  /-- An element, and the rest on demand. -/
  | cons (head : α) (tail : Unit → LazyList α)

namespace LazyList

variable {α : Type u} {β : Type v}

/-- The elements. -/
def toList : LazyList α → List α
  | nil => []
  | cons a tail => a :: (tail ()).toList

@[simp] theorem toList_nil : (nil : LazyList α).toList = [] := rfl

@[simp] theorem toList_cons (a : α) (tail : Unit → LazyList α) :
    (cons a tail).toList = a :: (tail ()).toList := rfl

/-! ## Making lists -/

/-- The elements of a list. -/
def ofList : List α → LazyList α
  | [] => nil
  | a :: as => cons a fun _ => ofList as

@[simp] theorem toList_ofList (as : List α) : (ofList as).toList = as := by
  induction as with
  | nil => rfl
  | cons a as ih => simp [ofList, ih]

/-- The first elements, and then others on demand. -/
def append : LazyList α → (Unit → LazyList α) → LazyList α
  | nil, more => more ()
  | cons a tail, more => cons a fun _ => (tail ()).append more

@[simp] theorem toList_append (as : LazyList α) (more : Unit → LazyList α) :
    (as.append more).toList = as.toList ++ (more ()).toList := by
  induction as with
  | nil => rfl
  | cons a tail ih => simp [append, ih]

/-- The images of the elements. -/
def map (f : α → β) : LazyList α → LazyList β
  | nil => nil
  | cons a tail => cons (f a) fun _ => (tail ()).map f

@[simp] theorem toList_map (f : α → β) (as : LazyList α) :
    (as.map f).toList = as.toList.map f := by
  induction as with
  | nil => rfl
  | cons a tail ih => simp [map, ih]

/-- The lists of the elements, one after the other. -/
def flatMap (f : α → LazyList β) : LazyList α → LazyList β
  | nil => nil
  | cons a tail => (f a).append fun _ => (tail ()).flatMap f

@[simp] theorem toList_flatMap (f : α → LazyList β) (as : LazyList α) :
    (as.flatMap f).toList = as.toList.flatMap fun a => (f a).toList := by
  induction as with
  | nil => rfl
  | cons a tail ih => simp [flatMap, ih]

/-! ## Going through lists -/

/-- The first element, and the rest. -/
def next? : LazyList α → Option (α × LazyList α)
  | nil => none
  | cons a tail => some (a, tail ())

/-- The first `n` elements, or all if there are fewer. -/
def take : (n : Nat) → LazyList α → List α
  | 0, _ => []
  | _ + 1, nil => []
  | n + 1, cons a tail => a :: (tail ()).take n

theorem take_eq (n : Nat) (as : LazyList α) : as.take n = as.toList.take n := by
  induction n generalizing as with
  | zero => simp [take]
  | succ n ih => cases as <;> simp [take, ih]

/-- What is left behind the first `n` elements. -/
def drop : (n : Nat) → LazyList α → LazyList α
  | 0, as => as
  | _ + 1, nil => nil
  | n + 1, cons _ tail => (tail ()).drop n

@[simp] theorem toList_drop (n : Nat) (as : LazyList α) :
    (as.drop n).toList = as.toList.drop n := by
  induction n generalizing as with
  | zero => simp [drop]
  | succ n ih => cases as <;> simp [drop, ih]

/-- Takes in all elements, from the first to the last. -/
def foldl (f : β → α → β) (b : β) : LazyList α → β
  | nil => b
  | cons a tail => (tail ()).foldl f (f b a)

theorem foldl_eq (f : β → α → β) (b : β) (as : LazyList α) :
    as.foldl f b = as.toList.foldl f b := by
  induction as generalizing b with
  | nil => rfl
  | cons a tail ih => simp [foldl, ih]

/-- The number of elements. -/
def length (as : LazyList α) : Nat := as.foldl (fun n _ => n + 1) 0

theorem length_eq (as : LazyList α) : as.length = as.toList.length := by
  have count (as : List α) (n : Nat) : as.foldl (fun n _ => n + 1) n = n + as.length := by
    induction as generalizing n with
    | nil => rfl
    | cons a as ih => rw [List.foldl_cons, ih, List.length_cons]; omega
  simp [length, foldl_eq, count]

end LazyList

end DigitReach
