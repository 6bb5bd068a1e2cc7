import ObjectMapping.Configuration
import ObjectMapping.DeferredQuery
import ObjectMapping.Proofs.Absorbing
import ObjectMapping.Proofs.Associating
import ObjectMapping.Proofs.Caching
import ObjectMapping.Proofs.Closing
import ObjectMapping.Proofs.Commuting
import ObjectMapping.Proofs.EqualFunctions
import ObjectMapping.Proofs.Exploring
import ObjectMapping.Proofs.Forming
import ObjectMapping.Proofs.Identities
import ObjectMapping.Proofs.Inlining
import ObjectMapping.Proofs.Keeping
import ObjectMapping.Proofs.Mapping
import ObjectMapping.Proofs.MergedFields
import ObjectMapping.Proofs.Nameless
import ObjectMapping.Proofs.NormalForm
import ObjectMapping.Proofs.Overriding
import ObjectMapping.Proofs.Placing
import ObjectMapping.Proofs.Projecting
import ObjectMapping.Proofs.Querying
import ObjectMapping.Proofs.SelfInclusion
import ObjectMapping.Proofs.Sequencing
import ObjectMapping.Proofs.Sharing
import ObjectMapping.Proofs.Stages
import ObjectMapping.Proofs.Symmetry
import ObjectMapping.Proofs.Typing
import ObjectMapping.Session.Mapper
import ObjectMapping.Stock.Natives
import ObjectMapping.Stock.Transformers
import ObjectMapping.Stock.Visitors
