import LateBinding.Session.Basic
import LateBinding.Settings.Source
import LateBinding.Proofs.OnceMap.Procedure
import LateBinding.Proofs.Action
import LateBinding.Proofs.OnceMap.Demand
import LateBinding.Proofs.OnceMap.Refinement
import LateBinding.Proofs.OnceMap.Script
import LateBinding.Proofs.Resolution.Inference
import LateBinding.Proofs.Resolution.Pipeline
import LateBinding.Proofs.Resolution.Proxy
import LateBinding.Proofs.Resolution.Agreement
import LateBinding.Proofs.Hierarchy
import LateBinding.Proofs.Extension.Recursion
import LateBinding.Proofs.Resolution.Keys
import LateBinding.Proofs.Session.Proxies
import LateBinding.Proofs.Session.Workspace
import LateBinding.Proofs.Session.Lookup
import LateBinding.Proofs.Session.Requests
import LateBinding.Proofs.Session.Caching
import LateBinding.Proofs.TypeSystem.History
import LateBinding.Proofs.Extension.Log
import LateBinding.Proofs.Extension.Memory
import LateBinding.Proofs.Session.GenericExtension
import LateBinding.Proofs.Extension.ScanOrder
import LateBinding.Proofs.Resolution.Balance
import LateBinding.Proofs.Session.Retention
import LateBinding.Proofs.Session.Interning
import LateBinding.Proofs.Session.Events
import LateBinding.Proofs.Session.Precedence
import LateBinding.Proofs.Resolution.Policy
import LateBinding.Proofs.TypeSystem.Identity
import LateBinding.Proofs.Session.Plan
import LateBinding.Proofs.Extension.Views
import LateBinding.Proofs.Traversal
import LateBinding.Proofs.TypeSystem.Subtyping
import LateBinding.Proofs.Extension.Completeness
import LateBinding.Proofs.TypeName
import LateBinding.Proofs.TypeSystem.Declaration
import LateBinding.Proofs.Resolution.Occurrence
import LateBinding.Proofs.Resolution.Representable
import LateBinding.Proofs.Resolution.Substitution
import LateBinding.Proofs.ValueTyping
import LateBinding.Proofs.Resolution.Failures
import LateBinding.Proofs.Resolution.Congruence
import LateBinding.Proofs.Resolution.Requirements
import LateBinding.Proofs.Extension.Universal
import LateBinding.Proofs.Session.Provenance
import LateBinding.Proofs.Session.Instantiation
