import StepChain.Describe
import StepChain.Main
import StepChain.Proofs.Wiring.Linear
import StepChain.Proofs.Compile.FileLists
import StepChain.Proofs.Path.Canonical
import StepChain.Proofs.Compile.Frame
import StepChain.Proofs.Compile.Isolation
import StepChain.Proofs.Flow.Declared
import StepChain.Proofs.Flow.Following
import StepChain.Proofs.Compile.Strictness
import StepChain.Proofs.Compile.Options
import StepChain.Proofs.Registry.History
import StepChain.Proofs.Compile.Succession
import StepChain.Proofs.Compile.Commutation
import StepChain.Proofs.Compile.NormalPaths
import StepChain.Proofs.Flow.Names
import StepChain.Proofs.Compile.Directories
import StepChain.Proofs.Command.Stages
import StepChain.Proofs.Command.Layers
import StepChain.Proofs.Command.Checking
import StepChain.Proofs.Path.Descent
import StepChain.Proofs.Placement
import StepChain.Proofs.Search
import StepChain.Proofs.Search.Growth
import StepChain.Proofs.Json.Grouping
import StepChain.Proofs.Wiring.SharedNames
import StepChain.Proofs.Serialisation
import StepChain.Proofs.Staging
import StepChain.Proofs.Flow.Construction
import StepChain.Proofs.Compile.Inventory
import StepChain.Proofs.Project.PostOptions
import StepChain.Proofs.Fragments
import StepChain.Proofs.Toml.Keys
import StepChain.Proofs.Toml.Image
import StepChain.Proofs.Project.Flow
import StepChain.Proofs.Project.Names
