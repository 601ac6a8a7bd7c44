/-!
# Well-known actions
-/

namespace WorkflowAudit.Action

/-- Actions with the functions that call them. -/
def wrappers : List (String × String) := [
  ("actions/attest-build-provenance", "attest_build_provenance"),
  ("actions/cache", "cache"),
  ("actions/checkout", "checkout"),
  ("actions/configure-pages", "configure_pages"),
  ("actions/create-github-app-token", "create_github_app_token"),
  ("actions/dependency-review-action", "dependency_review"),
  ("actions/deploy-pages", "deploy_pages"),
  ("actions/download-artifact", "download_artifact"),
  ("actions/first-interaction", "first_interaction"),
  ("actions/github-script", "github_script"),
  ("actions/labeler", "labeler"),
  ("actions/setup-dotnet", "setup_dotnet"),
  ("actions/setup-go", "setup_go"),
  ("actions/setup-java", "setup_java"),
  ("actions/setup-node", "setup_node"),
  ("actions/setup-python", "setup_python"),
  ("actions/stale", "stale"),
  ("actions/upload-artifact", "upload_artifact"),
  ("actions/upload-pages-artifact", "upload_pages_artifact"),
  ("actions/upload-release-asset", "upload_release_asset"),
  ("aws-actions/configure-aws-credentials", "configure_aws_credentials"),
  ("codecov/codecov-action", "codecov"),
  ("docker/build-push-action", "docker_build_push"),
  ("docker/login-action", "docker_login"),
  ("docker/metadata-action", "docker_metadata"),
  ("docker/setup-buildx-action", "setup_buildx"),
  ("peaceiris/actions-gh-pages", "gh_pages"),
  ("peter-evans/create-pull-request", "create_pull_request"),
  ("ruby/setup-ruby", "setup_ruby"),
  ("softprops/action-gh-release", "gh_release")]

/-- Actions with the version that a missing pin gets. -/
def versions : List (String × String) := [
  ("actions/checkout", "v4"),
  ("actions/setup-python", "v5"),
  ("actions/setup-node", "v4"),
  ("actions/setup-go", "v5"),
  ("actions/setup-java", "v4"),
  ("actions/cache", "v4"),
  ("actions/upload-artifact", "v4"),
  ("actions/download-artifact", "v4"),
  ("actions/github-script", "v7"),
  ("actions/stale", "v9"),
  ("actions/labeler", "v5")]

/-- Names of branches that many repositories have. -/
def commonBranches : List String := ["main", "master", "develop", "dev", "latest", "trunk"]

def wrapper? (action : String) : Option String := wrappers.lookup action

def version? (action : String) : Option String := versions.lookup action

end WorkflowAudit.Action
