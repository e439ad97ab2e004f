import ScopeGraphs.Units.Actions

/-!
# How a unit handles messages

Messages about scopes change the unit at once. Messages that ask for something become tasks, since
the answer may have to wait.

An edge is added to the graph of the owner of its source whenever it arrives, even if the label has
been closed by force in the meantime, so that no asserted edge is lost.
-/

namespace ScopeGraphs

variable {γ : Type}

namespace Turn

/-- Adds an edge that another unit asserts on a scope of this unit. -/
def receiveEdge (t : Turn γ) (e : Edge) : Turn γ :=
  if t.unit.owns e.source then t.edit fun u ↦ { u with graph := u.graph.addEdge e } else t

/-- Handles a message. -/
def handle (t : Turn γ) : Message → Turn γ
  | .start roots => t.start roots
  | .unitStarted sender => t.grant (.subUnit sender) sender
  | .initShare sender s slots sharing => t.shareInitialized sender s slots sharing
  | .addShare sender s => t.shareAnnounced sender s
  | .addEdge _ e => t.receiveEdge e
  | .closeEdge sender s slot => t.grant (.closeSlot s slot) sender
  | .closeScope sender s => t.grant (.closeScope s) sender
  | .query sender path q reply => t.spawn (.answerQuery t.unit.id sender path q reply)
  | .queryPrevious _ path q reply => t.spawn (.answerPrevious t.unit.id path q reply)
  | .confirm sender path p rule prevEmpty reply =>
    t.spawn (.answerConfirm t.unit.id sender path p rule prevEmpty reply)
  | .counterpart _ s reply => t.spawn (.answerCounterpart t.unit.id s reply)

end Turn

end ScopeGraphs
