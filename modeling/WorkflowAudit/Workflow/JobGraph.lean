import WorkflowAudit.Dependency.Graph
import WorkflowAudit.Workflow.Basic

/-!
# Jobs of workflows as graph nodes

A job is a node called `workflow/job`, so that jobs of different workflows stay apart.
-/

namespace WorkflowAudit

/-- Name under which the jobs of a workflow are grouped. -/
def Workflow.groupName (w : Workflow) : String := if w.name.isEmpty then "unnamed" else w.name

/-- The node of a job. -/
def Workflow.nodeId (w : Workflow) (job : String) : String := w.groupName ++ "/" ++ job

/-- The graph with a node for each job of a workflow; nodes of the same id are replaced. -/
def Graph.addWorkflow (g : Graph) (w : Workflow) (origin : Option Location) : Graph :=
  let node (id : String) (job : Job) : DependencyNode :=
    ⟨w.nodeId id, .job, job.needs.map w.nodeId, origin⟩
  { g with
    nodes := w.jobs.entries.foldl
      (fun nodes entry => nodes.insert (w.nodeId entry.1) (node entry.1 entry.2)) g.nodes }

end WorkflowAudit
