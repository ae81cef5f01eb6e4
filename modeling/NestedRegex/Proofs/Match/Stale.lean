import NestedRegex.Proofs.Match.Words

namespace NestedRegex.Match

variable {m : Match}

end NestedRegex.Match
