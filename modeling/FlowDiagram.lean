import FlowDiagram.Parameters
import FlowDiagram.Service.Basic
import FlowDiagram.Settings.Reading
import FlowDiagram.Viewer.Schedule
import FlowDiagram.Proofs.Definition.Keys
import FlowDiagram.Proofs.Definition.Leniency
import FlowDiagram.Proofs.Graph.Claiming
import FlowDiagram.Proofs.Graph.Emission
import FlowDiagram.Proofs.Graph.Identifiers
import FlowDiagram.Proofs.Graph.Coherence
import FlowDiagram.Proofs.Graph.Exits
import FlowDiagram.Proofs.Graph.Boundary
import FlowDiagram.Proofs.Graph.Parts
import FlowDiagram.Proofs.Graph.Outermost
import FlowDiagram.Proofs.Graph.Collapse
import FlowDiagram.Proofs.Layout.Parents
import FlowDiagram.Proofs.Layout.Columns
import FlowDiagram.Proofs.Layout.Layers
import FlowDiagram.Proofs.Layout.Forest
import FlowDiagram.Proofs.Layout.Frames
import FlowDiagram.Proofs.Layout.Nesting
import FlowDiagram.Proofs.Layout.Separation
import FlowDiagram.Proofs.Layout.Enclosure
import FlowDiagram.Proofs.Graph.Loopless
import FlowDiagram.Proofs.Layout.Lifting
import FlowDiagram.Proofs.Graph.Rightward
import FlowDiagram.Proofs.Graph.Prefix
import FlowDiagram.Proofs.Graph.Outline
import FlowDiagram.Proofs.Graph.Preorder
import FlowDiagram.Proofs.Store.Tables
import FlowDiagram.Proofs.Store.History
import FlowDiagram.Proofs.Store.Session
import FlowDiagram.Proofs.Store.Overlap
import FlowDiagram.Proofs.Store.Overtaking
import FlowDiagram.Proofs.Viewer.Latest
import FlowDiagram.Proofs.Diagram.Rendering
import FlowDiagram.Proofs.Diagram.Nesting
import FlowDiagram.Proofs.Layout.Renaming
import FlowDiagram.Proofs.Layout.Structure
import FlowDiagram.Proofs.Layout.Reordering
import FlowDiagram.Proofs.Transition.Formula
import FlowDiagram.Proofs.Transition.Meaning
import FlowDiagram.Proofs.Transition.Nested
import FlowDiagram.Proofs.Transition.Outermost
import FlowDiagram.Proofs.Json.Writing
import FlowDiagram.Proofs.Transition.Labels
import FlowDiagram.Proofs.Diagram.Labels
import FlowDiagram.Proofs.Service.Paths
import FlowDiagram.Proofs.Service.History
import FlowDiagram.Proofs.Service.Rendering
import FlowDiagram.Proofs.Json.Texts
import FlowDiagram.Proofs.Service.Requests
import FlowDiagram.Proofs.Graph.Starting
import FlowDiagram.Proofs.Definition.Acceptance
import FlowDiagram.Proofs.Definition.Plain
import FlowDiagram.Proofs.Definition.RoundTrip
import FlowDiagram.Proofs.Diagram.Data
import FlowDiagram.Proofs.Parameters
import FlowDiagram.Proofs.Graph.Spelled
import FlowDiagram.Proofs.Diagram.Choices
import FlowDiagram.Proofs.Graph.Naming
import FlowDiagram.Proofs.Layout.Cycles
import FlowDiagram.Proofs.Layout.Ranking
import FlowDiagram.Proofs.Layout.Crossings
import FlowDiagram.Proofs.Layout.Repair
import FlowDiagram.Proofs.Layout.Containers
import FlowDiagram.Proofs.Graph.Numbering
import FlowDiagram.Proofs.Json.Refusals
