import LateBinding.Proxy
import LateBinding.Proofs.OnceMap.Demand
import LateBinding.Proofs.Resolution.Pipeline

/-!
# What a proxy answers

A cache that holds what the pipeline answers does not show: the proxy answers with the pipeline,
whether its cache has the key or not.
-/

namespace LateBinding

namespace Proxy

variable {p : Proxy} {j : Journal}

theorem answer_resolveTypes (hcalls : p.callCache.Holds fun argTypes o =>
      j.types.argumentOutcome p.group p.policy argTypes = .ok o)
    (argTypes : List Ty) (receiver : Option ForeignObject) :
    answer (resolveTypes argTypes receiver) (p, j) =
      (j.types.argumentOutcome p.group p.policy argTypes).map (p.target receiver) := by
  rw [resolveTypes, answer_bind]
  show answer (callPart.run _ >>= fun outcome => pure (p.target receiver outcome)) (p, j) = _
  rw [answer_bind_pure, answer_run]
  have hpipeline := Journal.answer_resolveArguments p.group p.policy j argTypes
  exact congrArg (Except.map (p.target receiver)) (hcalls.answer_demandApart hpipeline)

theorem answer_instantiate (hinstantiations : p.typeCache.Holds fun typeArgs o =>
      j.types.typeArgumentOutcome p.group p.policy typeArgs = .ok o)
    (typeArgs : List Ty) (receiver : Option ForeignObject) :
    answer (instantiate typeArgs receiver) (p, j) =
      (j.types.typeArgumentOutcome p.group p.policy typeArgs).map (p.target receiver) := by
  rw [instantiate, answer_bind]
  show answer (typePart.run _ >>= fun outcome => pure (p.target receiver outcome)) (p, j) = _
  rw [answer_bind_pure, answer_run]
  have hpipeline := Journal.answer_resolveTypeArguments p.group p.policy j typeArgs
  exact congrArg (Except.map (p.target receiver)) (hinstantiations.answer_demandApart hpipeline)

end Proxy

end LateBinding
