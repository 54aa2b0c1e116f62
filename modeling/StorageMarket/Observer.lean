import StorageMarket.Notice

/-!
# Observers

An observer is called back for every notice, in the way that belongs to what has
happened, with the deal and, where it is about a slot, the slot and the host. It is
either a listener, which reacts in view of everything it was told before, or a panel,
which puts the notice together again and calls each of its members back in order.

A listener may fail or even crash. A panel keeps that to the member concerned: the
others are called all the same, the panel counts the failure against the member, and
itself never fails. Nobody does so for a listener on its own: when it crashes it takes
down whoever tells it, and is told nothing more.
-/

namespace StorageMarket

inductive Reaction where
  | done
  | failed
  | crashed
deriving DecidableEq

mutual

inductive Observer where
  /-- A listener with a name: how it reacts, given what it was told before, and what that is,
  the latest first. -/
  | listener (name : String) (react : List Notice → Notice → Reaction) (told : List Notice)
  | panel (members : Panel)

inductive Panel where
  | empty
  | member (observer : Observer) (failures : Nat) (rest : Panel)

end

/-! ## Calling back -/

/-- The ways to call an observer back, each with what is handed to it. -/
structure Callbacks (α : Type) where
  onPublished : Deal → α
  onFulfilled : Deal → α
  onCancelled : Deal → α
  onFailed : Deal → α
  onFinished : Deal → α
  onSlotFilled : Deal → SlotIndex → Address → α
  onSlotFreed : Deal → SlotIndex → Option Address → α

def Notice.dispatch {α : Type} (notice : Notice) (callbacks : Callbacks α) : α :=
  match notice.occurrence with
  | .published => callbacks.onPublished notice.deal
  | .fulfilled => callbacks.onFulfilled notice.deal
  | .cancelled => callbacks.onCancelled notice.deal
  | .failed => callbacks.onFailed notice.deal
  | .finished => callbacks.onFinished notice.deal
  | .slotFilled slot host => callbacks.onSlotFilled notice.deal slot host
  | .slotFreed slot previous => callbacks.onSlotFreed notice.deal slot previous

/-- Callbacks that put together the notice that they were called for. -/
def Callbacks.rebuilding {α : Type} (f : Notice → α) : Callbacks α where
  onPublished deal := f ⟨.published, deal⟩
  onFulfilled deal := f ⟨.fulfilled, deal⟩
  onCancelled deal := f ⟨.cancelled, deal⟩
  onFailed deal := f ⟨.failed, deal⟩
  onFinished deal := f ⟨.finished, deal⟩
  onSlotFilled deal slot host := f ⟨.slotFilled slot host, deal⟩
  onSlotFreed deal slot previous := f ⟨.slotFreed slot previous, deal⟩

/-- Nothing about a notice is lost when it is dispatched and put together again. -/
theorem Notice.dispatch_rebuilding {α : Type} (notice : Notice) (f : Notice → α) :
    notice.dispatch (.rebuilding f) = f notice := by
  obtain ⟨occurrence, deal⟩ := notice
  cases occurrence <;> rfl

/-! ## Telling -/

structure Delivery where
  listener : String
  notice : Notice
deriving DecidableEq

/-- What comes of telling a notice: the observer afterwards, how it took the notice, and which
listeners were reached, in order. -/
structure Told (α : Type) where
  after : α
  reaction : Reaction
  deliveries : List Delivery

mutual

def Observer.callbacks : Observer → Callbacks (Told Observer)
  | .listener name react told =>
      .rebuilding fun notice =>
        ⟨.listener name react (notice :: told), react told notice, [⟨name, notice⟩]⟩
  | .panel members =>
      .rebuilding fun notice =>
        let told := members.fanOut notice
        ⟨.panel told.after, .done, told.deliveries⟩

def Panel.fanOut : Panel → Notice → Told Panel
  | .empty, _ => ⟨.empty, .done, []⟩
  | .member observer failures rest, notice =>
      let first := notice.dispatch observer.callbacks
      let others := rest.fanOut notice
      let failures := if first.reaction = .done then failures else failures + 1
      ⟨.member first.after failures others.after, .done, first.deliveries ++ others.deliveries⟩

end

namespace Panel

/-- The panel of the given observers, none of which has failed yet. -/
def ofList : List Observer → Panel
  | [] => .empty
  | observer :: rest => .member observer 0 (ofList rest)

def size : Panel → Nat
  | .empty => 0
  | .member _ _ rest => rest.size + 1

/-- The members, each with how often it has failed. -/
def entries : Panel → List (Observer × Nat)
  | .empty => []
  | .member observer failures rest => (observer, failures) :: rest.entries

def failures (panel : Panel) : List Nat := panel.entries.map Prod.snd

end Panel

mutual

/-- The listeners that an observer passes notices on to, in order. -/
def Observer.listeners : Observer → List Observer
  | .listener name react told => [.listener name react told]
  | .panel members => members.listeners

def Panel.listeners : Panel → List Observer
  | .empty => []
  | .member observer _ rest => observer.listeners ++ rest.listeners

end

namespace Observer

def tell (notice : Notice) (observer : Observer) : Told Observer :=
  notice.dispatch observer.callbacks

theorem tell_listener (notice : Notice) (name : String) (react : List Notice → Notice → Reaction)
    (told : List Notice) :
    (listener name react told).tell notice
      = ⟨.listener name react (notice :: told), react told notice, [⟨name, notice⟩]⟩ := by
  rw [tell, callbacks, Notice.dispatch_rebuilding]

theorem tell_panel (notice : Notice) (members : Panel) :
    (panel members).tell notice
      = ⟨.panel (members.fanOut notice).after, .done, (members.fanOut notice).deliveries⟩ := by
  rw [tell, callbacks, Notice.dispatch_rebuilding]

/-- A panel never fails, whatever its members do. -/
theorem reaction_tell_panel (members : Panel) (notice : Notice) :
    ((panel members).tell notice).reaction = .done := by
  rw [tell_panel]

/-- Tells an observer notices one after the other, however it takes them, as a panel tells its
members: the observer afterwards, and which listeners were reached, in order. -/
def tellAll (observer : Observer) : List Notice → Observer × List Delivery
  | [] => (observer, [])
  | notice :: notices =>
      let told := observer.tell notice
      let (after, deliveries) := told.after.tellAll notices
      (after, told.deliveries ++ deliveries)

/-- Whether this is a listener that crashed when it was last told something. -/
def isDown : Observer → Bool
  | .listener _ react (latest :: earlier) => react earlier latest = .crashed
  | _ => false

/-- Tells an observer that nobody watches over notices one after the other, until it is down. -/
def inform (observer : Observer) : List Notice → Observer
  | [] => observer
  | notice :: notices =>
      if observer.isDown then observer else (observer.tell notice).after.inform notices

theorem inform_of_isDown {observer : Observer} (h : observer.isDown = true)
    (notices : List Notice) : observer.inform notices = observer := by
  cases notices with
  | nil => rfl
  | cons notice notices => rw [inform, if_pos h]

theorem inform_append (observer : Observer) (notices more : List Notice) :
    observer.inform (notices ++ more) = (observer.inform notices).inform more := by
  induction notices generalizing observer with
  | nil => rfl
  | cons notice notices ih =>
      rw [List.cons_append, inform, inform]
      split
      · next hdown => rw [inform_of_isDown hdown]
      · exact ih _

def quiet (name : String) : Observer := .listener name (fun _ _ => .done) []

def silent : Observer := .quiet ""

def name : Observer → String
  | .listener name _ _ => name
  | .panel _ => ""

/-- What a listener was told, the latest last; a panel itself is told nothing. -/
def told : Observer → List Notice
  | .listener _ _ told => told.reverse
  | .panel _ => []

def toldTo (name : String) (observer : Observer) : List Notice :=
  (observer.listeners.filter fun listener => listener.name = name).flatMap told

theorem told_tellAll_listener (name : String) (react : List Notice → Notice → Reaction)
    (told notices : List Notice) :
    ((listener name react told).tellAll notices).1.told
      = (listener name react told).told ++ notices := by
  induction notices generalizing told with
  | nil => simp [tellAll]
  | cons notice notices ih =>
      rw [tellAll, tell_listener]
      show ((listener name react (notice :: told)).tellAll notices).1.told = _
      rw [ih]
      simp [Observer.told]

/-- The failures of the members of a panel, in order; a listener has none. -/
def failures : Observer → List Nat
  | .listener .. => []
  | .panel members => members.failures

end Observer

end StorageMarket
