import Poco.Lib.SuccessorLinks

/-! # Child nodes

`AbstractNode` and `AbstractContainerNode` keep the tree of a document in three links: every node knows its
parent and its next sibling, and a container its first child.  The functions here read and change these links as
the members of the two classes do.

The nodes are those of all documents at some time, without the attributes, which have lists of their own.  A node
keeps its type and its owner.  There are no event listeners, and the reference counts are left out.  A loop
along a list of children gets as many rounds as `fuel` allows; a call that is not over then is `unfinished`. -/

namespace Poco.XML

open Poco.Lib

/-- `Node::nodeType`. -/
inductive NodeType
  | ELEMENT_NODE
  | ATTRIBUTE_NODE
  | TEXT_NODE
  | CDATA_SECTION_NODE
  | ENTITY_REFERENCE_NODE
  | ENTITY_NODE
  | PROCESSING_INSTRUCTION_NODE
  | COMMENT_NODE
  | DOCUMENT_NODE
  | DOCUMENT_TYPE_NODE
  | DOCUMENT_FRAGMENT_NODE
  | NOTATION_NODE
deriving DecidableEq, Repr

/-- The classes that are derived from `AbstractContainerNode`. -/
def NodeType.isContainer : NodeType → Bool
  | ELEMENT_NODE | DOCUMENT_NODE | DOCUMENT_FRAGMENT_NODE | DOCUMENT_TYPE_NODE | ENTITY_NODE => true
  | _ => false

/-- What does not change in a node. -/
structure Kinds (ν : Type) where
  nodeType : ν → NodeType
  _pOwner : ν → Option ν

/-- The links of the nodes. -/
structure Links (ν : Type) where
  _pParent : ν → Option ν
  _pNext : ν → Option ν
  _pFirstChild : ν → Option ν

/-- What the members throw. -/
inductive Thrown
  | NullPointerException
  | WRONG_DOCUMENT_ERR
  | NOT_FOUND_ERR
  | HIERARCHY_REQUEST_ERR
  | NO_MODIFICATION_ALLOWED_ERR
  | INVALID_STATE_ERR
deriving DecidableEq, Repr

/-- The end of a call. -/
inductive Outcome (ν α : Type)
  | returned (a : α) (s : Links ν)
  | thrown (e : Thrown) (s : Links ν)
  | unfinished

variable {ν : Type}

/-- The next statement, unless the call is over. -/
def Outcome.andThen {α β : Type} (o : Outcome ν α) (k : α → Links ν → Outcome ν β) : Outcome ν β :=
  match o with
  | returned a s => k a s
  | thrown e s => thrown e s
  | unfinished => unfinished

variable [DecidableEq ν]

namespace Links

variable (s : Links ν) (n m : ν) (v : Option ν)

def setParent : Links ν := { s with _pParent := fun m => if m = n then v else s._pParent m }

def setNext : Links ν := { s with _pNext := fun m => if m = n then v else s._pNext m }

def setFirstChild : Links ν := { s with _pFirstChild := fun m => if m = n then v else s._pFirstChild m }

@[simp] theorem setParent_pParent : (s.setParent n v)._pParent m = if m = n then v else s._pParent m := rfl
@[simp] theorem setParent_pNext : (s.setParent n v)._pNext = s._pNext := rfl
@[simp] theorem setParent_pFirstChild : (s.setParent n v)._pFirstChild = s._pFirstChild := rfl
@[simp] theorem setNext_pParent : (s.setNext n v)._pParent = s._pParent := rfl
@[simp] theorem setNext_pNext : (s.setNext n v)._pNext m = if m = n then v else s._pNext m := rfl
@[simp] theorem setNext_pFirstChild : (s.setNext n v)._pFirstChild = s._pFirstChild := rfl
@[simp] theorem setFirstChild_pParent : (s.setFirstChild n v)._pParent = s._pParent := rfl
@[simp] theorem setFirstChild_pNext : (s.setFirstChild n v)._pNext = s._pNext := rfl
@[simp] theorem setFirstChild_pFirstChild :
    (s.setFirstChild n v)._pFirstChild m = if m = n then v else s._pFirstChild m := rfl

end Links

/-- `AbstractNode::previousSibling`. -/
def AbstractNode.previousSibling (fuel : ℕ) (s : Links ν) (this : ν) : Option (Option ν) :=
  match s._pParent this with
  | none => some none
  | some parent => seek s._pNext (fun sibling => s._pNext sibling = some this) fuel (s._pFirstChild parent)

namespace AbstractContainerNode

variable (K : Kinds ν) (fuel : ℕ)

/-- `lastChild`. -/
def lastChild (s : Links ν) (this : ν) : Option (Option ν) :=
  match s._pFirstChild this with
  | none => some none
  | some child => seek s._pNext (fun child => s._pNext child = none) fuel (some child)

/-- `removeChild`. -/
def removeChild (this : ν) (oldChild : Option ν) (s : Links ν) : Outcome ν ν :=
  match oldChild with
  | none => .thrown .NullPointerException s
  | some old =>
    if s._pFirstChild this = some old then
      .returned old (((s.setFirstChild this (s._pNext old)).setNext old none).setParent old none)
    else
      match seek s._pNext (fun cur => s._pNext cur = some old) fuel (s._pFirstChild this) with
      | none => .unfinished
      | some none => .thrown .NOT_FOUND_ERR s
      | some (some cur) => .returned old (((s.setNext cur (s._pNext old)).setNext old none).setParent old none)

/-- The removal of a new child from where it is. -/
def detach (new : ν) (s : Links ν) : Outcome ν Unit :=
  match s._pParent new with
  | none => .returned () s
  | some parent => (removeChild fuel parent (some new) s).andThen fun _ s => .returned () s

/-- The loop to the last child of a fragment, which makes `this` the parent on its way. -/
def adopt (this : ν) : ℕ → ν → Links ν → Option (ν × Links ν)
  | 0, last, s => if (s._pNext last).isSome then none else some (last, s.setParent last (some this))
  | fuel + 1, last, s =>
    match s._pNext last with
    | none => some (last, s.setParent last (some this))
    | some next => adopt this fuel next (s.setParent last (some this))

/-- The first part of an insertion: the first and the last of the new children, without their old parent. -/
def take (this new : ν) (s : Links ν) : Outcome ν (Option (ν × ν)) :=
  if K.nodeType new = .DOCUMENT_FRAGMENT_NODE then
    match s._pFirstChild new with
    | none => .returned none (s.setFirstChild new none)
    | some first =>
      match adopt this fuel first s with
      | none => .unfinished
      | some (last, s) => .returned (some (first, last)) (s.setFirstChild new none)
  else (detach fuel new s).andThen fun _ s => .returned (some (new, new)) (s.setParent new (some this))

/-- The second part of `insertBefore`. -/
def spliceBefore (this : ν) (refChild : Option ν) (ends : Option (ν × ν)) (s : Links ν) : Outcome ν Unit :=
  match s._pFirstChild this, ends with
  | some cur, some (first, last) =>
    if some cur = refChild then .returned () ((s.setNext last (some cur)).setFirstChild this (some first))
    else
      match seek s._pNext (fun cur => s._pNext cur = refChild) fuel (some cur) with
      | none => .unfinished
      | some none => .thrown .NOT_FOUND_ERR s
      | some (some cur) => .returned () ((s.setNext last (s._pNext cur)).setNext cur (some first))
  | _, _ => .returned () (s.setFirstChild this (ends.map Prod.fst))

/-- The second part of `insertAfterNP`. -/
def spliceAfter (this : ν) (refChild : Option ν) (ends : Option (ν × ν)) (s : Links ν) : Outcome ν Unit :=
  match s._pFirstChild this, ends with
  | some cur, some (first, last) =>
    match seek s._pNext (fun cur => some cur = refChild) fuel (some cur) with
    | none => .unfinished
    | some none => .thrown .NOT_FOUND_ERR s
    | some (some cur) => .returned () ((s.setNext last (s._pNext cur)).setNext cur (some first))
  | _, _ => .returned () (s.setFirstChild this (ends.map Prod.fst))

/-- The two insertions, which differ in their second parts only. -/
def insertWith (splice : ν → Option ν → Option (ν × ν) → Links ν → Outcome ν Unit) (this : ν)
    (newChild refChild : Option ν) (s : Links ν) : Outcome ν ν :=
  match newChild with
  | none => .thrown .NullPointerException s
  | some new =>
    if K._pOwner new ≠ K._pOwner this ∧ K._pOwner new ≠ some this then .thrown .WRONG_DOCUMENT_ERR s
    else if refChild.any (fun ref => s._pParent ref ≠ some this) then .thrown .NOT_FOUND_ERR s
    else if newChild = refChild then .returned new s
    else if this = new then .thrown .HIERARCHY_REQUEST_ERR s
    else
      (take K fuel this new s).andThen fun ends s =>
        (splice this refChild ends s).andThen fun _ s => .returned new s

/-- `insertBefore`. -/
def insertBefore (this : ν) (newChild refChild : Option ν) (s : Links ν) : Outcome ν ν :=
  insertWith K fuel (spliceBefore fuel) this newChild refChild s

/-- `insertAfterNP`. -/
def insertAfterNP (this : ν) (newChild refChild : Option ν) (s : Links ν) : Outcome ν ν :=
  insertWith K fuel (spliceAfter fuel) this newChild refChild s

/-- `appendChild`. -/
def appendChild (this : ν) (newChild : Option ν) (s : Links ν) : Outcome ν ν := insertBefore K fuel this newChild none s

/-- The second part of `replaceChild`, for a new child that is not a fragment. -/
def exchange (this new old : ν) (s : Links ν) : Outcome ν Unit :=
  let replaced (s : Links ν) := ((((s.setNext new (s._pNext old)).setParent new (some this)).setNext old none).setParent
    old none)
  if s._pFirstChild this = some old then .returned () ((replaced s).setFirstChild this (some new))
  else
    match seek s._pNext (fun cur => s._pNext cur = some old) fuel (s._pFirstChild this) with
    | none => .unfinished
    | some none => .thrown .NOT_FOUND_ERR s
    | some (some cur) => .returned () ((replaced s).setNext cur (some new))

/-- `replaceChild`. -/
def replaceChild (this : ν) (newChild oldChild : Option ν) (s : Links ν) : Outcome ν ν :=
  match newChild, oldChild with
  | some new, some old =>
    if K._pOwner new ≠ K._pOwner this ∧ K._pOwner new ≠ some this then .thrown .WRONG_DOCUMENT_ERR s
    else if s._pParent old ≠ some this then .thrown .NOT_FOUND_ERR s
    else if newChild = oldChild then .returned new s
    else if this = new then .thrown .HIERARCHY_REQUEST_ERR s
    else if K.nodeType new = .DOCUMENT_FRAGMENT_NODE then
      (insertBefore K fuel this newChild oldChild s).andThen fun _ s =>
        (removeChild fuel this oldChild s).andThen fun _ s => .returned old s
    else
      (detach fuel new s).andThen fun _ s => (exchange fuel this new old s).andThen fun _ s => .returned old s
  | _, _ => .thrown .NullPointerException s

end AbstractContainerNode

/-! ### Calls -/

/-- A call of a member that changes links. -/
inductive Call (ν : Type)
  | insertBefore (this : ν) (newChild refChild : Option ν)
  | insertAfterNP (this : ν) (newChild refChild : Option ν)
  | replaceChild (this : ν) (newChild oldChild : Option ν)
  | removeChild (this : ν) (oldChild : Option ν)
  | appendChild (this : ν) (newChild : Option ν)

open AbstractContainerNode in
/-- The call of the virtual function: the members of `AbstractNode` only throw. -/
def Call.perform (K : Kinds ν) (fuel : ℕ) (s : Links ν) : Call ν → Outcome ν ν
  | insertBefore this new ref =>
    if (K.nodeType this).isContainer then AbstractContainerNode.insertBefore K fuel this new ref s
    else .thrown .HIERARCHY_REQUEST_ERR s
  | insertAfterNP this new ref =>
    if (K.nodeType this).isContainer then AbstractContainerNode.insertAfterNP K fuel this new ref s
    else .thrown .HIERARCHY_REQUEST_ERR s
  | replaceChild this new old =>
    if (K.nodeType this).isContainer then AbstractContainerNode.replaceChild K fuel this new old s
    else .thrown .HIERARCHY_REQUEST_ERR s
  | removeChild this old =>
    if (K.nodeType this).isContainer then AbstractContainerNode.removeChild fuel this old s
    else .thrown .NO_MODIFICATION_ALLOWED_ERR s
  | appendChild this new =>
    if (K.nodeType this).isContainer then AbstractContainerNode.appendChild K fuel this new s
    else .thrown .HIERARCHY_REQUEST_ERR s

end Poco.XML
